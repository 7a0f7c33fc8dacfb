import LispScript.Proofs.AlikeEvaluation
import LispScript.Proofs.Sessions

/-!
Images with nothing missing: what symbols, objects and variables refer to is there. Such an image is
like itself, object by object, and a run that begins in one ends in one.
-/

namespace LispScript.Machine

namespace Pairing

variable {m : Pairing} {t : SymbolTable}

section Beginning

theorem AlikeTables.internStandard (alike : m.AlikeTables t t) (name : String) :
    m.AlikeTables (t.internStandard name).2 (t.internStandard name).2 :=
  (alike.intern name _).1.updatePackage _ _

theorem AlikeTables.internAllStandard (alike : m.AlikeTables t t) (names : List String) :
    m.AlikeTables (t.internAllStandard names) (t.internAllStandard names) := by
  induction names generalizing t with
  | nil => exact alike
  | cons name rest ih => exact ih (alike.internStandard name)

theorem AlikeTables.setValue (alike : m.AlikeTables t t) (id : SymbolId) {value : Value}
    (same : m.Same value value) :
    m.AlikeTables (t.setValue id (some value)) (t.setValue id (some value)) :=
  alike.updateSymbol id fun _ _ old => { old with value := .some same }

theorem AlikeTables.setFunction (alike : m.AlikeTables t t) (id : SymbolId) {function : Value}
    (same : m.Same function function) :
    m.AlikeTables (t.setFunction id (some function)) (t.setFunction id (some function)) :=
  alike.updateSymbol id fun _ _ old => { old with function := .some same }

theorem AlikeTables.standard (m : Pairing) :
    m.AlikeTables SymbolTable.standard SymbolTable.standard := by
  have bare : m.AlikeTables SymbolTable.bare SymbolTable.bare :=
    ⟨rfl, rfl, rfl, rfl, rfl, fun _ => ⟨rfl, rfl, .none, .none, .nil⟩⟩
  have initial : m.AlikeTables SymbolTable.initial SymbolTable.initial :=
    (((bare.internStandard "NIL").internStandard "T").setValue _ .nil).setValue _ (.symbol _)
  have keywords (names : List String) (table : SymbolTable) (alike : m.AlikeTables table table) :
      m.AlikeTables (names.foldl (fun table name => (table.internKeyword name).2) table)
        (names.foldl (fun table name => (table.internKeyword name).2) table) := by
    induction names generalizing table with
    | nil => exact alike
    | cons name rest ih => exact ih _ (alike.intern name _).1
  exact ((keywords _ _ (initial.internAllStandard _)).internAllStandard _).internAllStandard _

/-- The symbols of the primitives hold functions that are there. -/
theorem AlikeTables.initial
    (functions : ∀ p, m.functions (Image.primitiveAddress p) (Image.primitiveAddress p)) :
    m.AlikeTables Image.initialSymbols Image.initialSymbols := by
  have all (ps : List Primitive) (table : SymbolTable) (alike : m.AlikeTables table table) :
      m.AlikeTables
        (ps.foldl (fun table p => table.setFunction p.symbol
          (some (.function (Image.primitiveAddress p)))) table)
        (ps.foldl (fun table p => table.setFunction p.symbol
          (some (.function (Image.primitiveAddress p)))) table) := by
    induction ps generalizing table with
    | nil => exact alike
    | cons p rest ih => exact ih _ (alike.setFunction _ (.function (functions p)))
  exact all _ _ (.standard m)

/-- Each address below a bound with itself. -/
def Below (bound : Nat) : Address → Address → Prop := fun a b => a = b ∧ a < bound

theorem Paired.below {α : Type} {same : α → α → Prop} {xs : Array α}
    (each : ∀ x ∈ xs, same x x) : Paired (Below xs.size) same xs xs := by
  refine ⟨fun a b held => ?_, ⟨?_, ?_⟩⟩
  · obtain ⟨rfl, lower⟩ := held
    exact ⟨xs[a], xs[a], by simp [lower], by simp [lower], each _ (Array.getElem_mem lower)⟩
  · rintro a b c ⟨rfl, -⟩ ⟨rfl, -⟩
    rfl
  · rintro a b c ⟨rfl, -⟩ ⟨rfl, -⟩
    rfl

/-- Each object of a heap with itself. -/
def whole (heap : Heap) : Pairing where
  cells := Below heap.cells.size
  strings := Below heap.strings
  vectors := Below heap.vectors.size
  functions := Below heap.functions.size
  bundles := Below heap.bundles.size
  transfers := Below heap.transfers.size
  scopes := Below heap.scopes.size
  inner _ _ := False
  hidden _ := none

/-- The first image with some conses is like itself, if what is in them is there. -/
theorem Alike.initial {cells : Array Cell} (limit : Nat)
    (each : ∀ cell ∈ cells, SameCell (whole { Image.initialHeap with cells }) cell cell) :
    let image : Image := { Image.initial limit with heap := { Image.initialHeap with cells } }
    (whole image.heap).Alike image image := by
  intro image
  have size : image.heap.functions.size = Discipline.firstFunction + Primitive.all.length :=
    Discipline.initialHeap_functions
  have primitive (p : Primitive) : Below image.heap.functions.size (Image.primitiveAddress p)
      (Image.primitiveAddress p) := by
    obtain ⟨lower, -⟩ := List.getElem?_eq_some_iff.mp (Image.primitiveIndex p)
    exact ⟨rfl, size ▸ Nat.add_lt_add_left lower _⟩
  have functions (f : FunctionObject) (member : f ∈ image.heap.functions) :
      (whole image.heap).SameFunction f f := by
    simp only [image, Image.initialHeap, Array.mem_append, List.mem_toArray, List.mem_map] at member
    rcases member with ⟨n, -, rfl⟩ | ⟨p, -, rfl⟩
    · exact ⟨.native n, .nil⟩
    · exact ⟨.primitive p, .nil⟩
  have scopes (scope : Scope) (member : scope ∈ image.heap.scopes) :
      (whole image.heap).SameScope scope scope := by
    obtain rfl := Array.mem_singleton.mp member
    refine ⟨rfl, fun name => ?_, .none, fun _ nested => by cases nested⟩
    rw [Std.TreeMap.getElem?_emptyc]
    exact .none
  have strings : Relator.BiUnique (Below image.heap.strings) :=
    ⟨fun _ _ _ first second => first.1.trans second.1.symm,
      fun _ _ _ first second => first.1.symm.trans second.1⟩
  refine ⟨.initial primitive, ?_, rfl, rfl⟩
  exact {
    cellCount := rfl
    cells := .below each
    hidden := fun _ _ none_ => by cases none_
    strings := fun a b held => ⟨held.2, held.1 ▸ held.2⟩
    uniqueStrings := strings
    vectors := .below fun _ member => absurd member (Array.not_mem_empty _)
    functions := .below functions
    natives := fun n => ⟨rfl, Nat.lt_of_lt_of_le (Discipline.nativeAddress_lt n)
      (size ▸ Nat.le_add_right _ _)⟩
    bundles := .below fun _ member => absurd member (Array.not_mem_empty _)
    transfers := .below fun _ member => absurd member (Array.not_mem_empty _)
    scopes := .below scopes
    parentsLeft := (Ordered.initial cells).parents
    parentsRight := (Ordered.initial cells).parents
    inner := fun _ _ within => within.elim }

end Beginning

end Pairing

end LispScript.Machine
