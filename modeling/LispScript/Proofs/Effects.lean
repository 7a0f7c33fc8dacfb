import LispScript.Proofs.Escapes
import LispScript.Proofs.Standing

/-!
What the steps of the compiler do to its state. Most of them only add: they count on, make symbols,
objects and bindings, and mark bindings as used. A relation between states that holds for each of
these changes, and from state to state in a row, holds for every step that is put together from
them, however it ends.
-/

namespace LispScript.Compiler

open Script

variable {α β γ : Type} {R : CompileState → CompileState → Prop}

/-- The state after a step, whether it succeeded or not. -/
def stateAfter (step : Compile α) (s : CompileState) : CompileState :=
  match step s with
  | .ok _ later => later
  | .error _ later => later

/-- A step goes on from the state after the steps before it. -/
theorem bind_ended {step : Compile α} {next : α → Compile β} {s later : CompileState} {a : α}
    (ended : step s = .ok a later) : (step >>= next) s = next a later := by
  change EStateM.bind step next s = _
  rw [EStateM.bind, ended]

/-- A step that reads the state goes on in it. -/
theorem bind_get {next : CompileState → Compile α} {s : CompileState} :
    (get >>= next) s = next s s := rfl

theorem stateAfter_bind {step : Compile α} {next : α → Compile β} {s later : CompileState} {a : α}
    (ended : step s = .ok a later) :
    stateAfter (step >>= next) s = stateAfter (next a) later := by
  rw [stateAfter, bind_ended ended]
  rfl

/-- A step that relates the state before it to the state after it. -/
def Obeys (R : CompileState → CompileState → Prop) (step : Compile α) : Prop :=
  ∀ s, R s (stateAfter step s)

theorem Obeys.ended {step : Compile α} {s later : CompileState} {a : α} (obeys : Obeys R step)
    (ok : step s = .ok a later) : R s later := by
  have related := obeys s
  rwa [stateAfter, ok] at related

/-- A relation that holds where nothing is made but keywords. -/
class Interning (R : CompileState → CompileState → Prop) : Prop where
  refl : ∀ s, R s s
  trans : ∀ {s t u}, R s t → R t u → R s u
  keyword : ∀ s name, R s { s with image :=
    { s.image with symbols := (s.image.symbols.internKeyword name).2 } }

/-- A relation that holds for the changes that only add. -/
class Additive (R : CompileState → CompileState → Prop) : Prop extends Interning R where
  counters : ∀ s counters, R s { s with counters }
  literals : ∀ s literals, R s { s with literals }
  cells : ∀ s cells, R s { s with
    image := { s.image with heap := { s.image.heap with cells } } }
  bind : ∀ s name space reference declarations, R s { s with bindings :=
    (s.bindings.bindWith name space reference declarations).2 }
  used : ∀ s binding, R s { s with bindings := s.bindings.markUsed binding }
  global : ∀ s id space, R s { s with bindings := (s.bindings.lookupGlobal id space).2 }

/-- A relation that holds for the changes that only add, where literals are made in the way of the
compiler, and only for the unit that they are in. -/
class Gradual (R : CompileState → CompileState → Prop) : Prop extends Interning R where
  counters : ∀ s counters, counters.literals = s.counters.literals → R s { s with counters }
  symbolLiteral : ∀ id, Obeys R (symbolLiteral id)
  literalWithin : ∀ depth value, Obeys R (literalWithin depth value)
  unit : ∀ {s later}, R { s with literals := {} } later → R s { later with literals := s.literals }
  cells : ∀ s cells, R s { s with
    image := { s.image with heap := { s.image.heap with cells } } }
  bind : ∀ s name space reference declarations, R s { s with bindings :=
    (s.bindings.bindWith name space reference declarations).2 }
  used : ∀ s binding, R s { s with bindings := s.bindings.markUsed binding }
  global : ∀ s id space, R s { s with bindings := (s.bindings.lookupGlobal id space).2 }

namespace Obeys

variable {step : Compile α} {next : α → Compile β} [Interning R]

theorem pure (a : α) : Obeys R (Pure.pure a : Compile α) := fun s => Interning.refl s

theorem throw (e : CompileError) : Obeys R (MonadExcept.throw e : Compile α) :=
  fun s => Interning.refl s

/-- A step that reads the state only. -/
theorem read (value : CompileState → α) : Obeys R (fun s => .ok (value s) s : Compile α) :=
  fun s => Interning.refl s

theorem bind (first : Obeys R step) (second : ∀ a, Obeys R (next a)) :
    Obeys R (step >>= next) := by
  intro s
  have before := first s
  change R s (stateAfter (EStateM.bind step next) s)
  rw [stateAfter, EStateM.bind]
  rw [stateAfter] at before
  cases ended : step s with
  | ok a later =>
      rw [ended] at before
      exact Interning.trans before (second a later)
  | error e later =>
      rw [ended] at before
      exact before

theorem map (first : Obeys R step) (f : α → β) : Obeys R (f <$> step) := by
  rw [map_eq_pure_bind]
  exact bind first fun _ => pure _

theorem mapM {f : γ → Compile α} (items : List γ) (each : ∀ item, Obeys R (f item)) :
    Obeys R (items.mapM f) := by
  induction items with
  | nil =>
      rw [List.mapM_nil]
      exact pure _
  | cons item rest ih =>
      rw [List.mapM_cons]
      exact bind (each item) fun _ => bind ih fun _ => pure _

theorem foldlM {f : α → γ → Compile α} (items : List γ) (start : α)
    (each : ∀ a item, Obeys R (f a item)) :
    Obeys R (items.foldlM f start) := by
  induction items generalizing start with
  | nil => exact pure _
  | cons item rest ih =>
      rw [List.foldlM_cons]
      exact bind (each start item) ih

theorem foldrM {f : γ → α → Compile α} (items : List γ) (start : α)
    (each : ∀ item a, Obeys R (f item a)) :
    Obeys R (items.foldrM f start) := by
  induction items with
  | nil => exact pure _
  | cons item rest ih =>
      rw [List.foldrM_cons]
      exact bind ih (each item)

theorem forM {f : γ → Compile PUnit} (items : List γ) (each : ∀ item, Obeys R (f item)) :
    Obeys R (items.forM f) := by
  induction items with
  | nil => exact pure _
  | cons item rest ih =>
      change Obeys R (f item >>= fun _ => rest.forM f)
      exact bind (each item) fun _ => ih

theorem anyM {f : γ → Compile Bool} (items : List γ) (each : ∀ item, Obeys R (f item)) :
    Obeys R (items.anyM f) := by
  induction items with
  | nil => exact pure _
  | cons item rest ih =>
      rw [List.anyM]
      refine bind (each item) fun found => ?_
      cases found with
      | true => exact pure _
      | false => exact ih

theorem optionMapM {f : γ → Compile α} (item? : Option γ) (each : ∀ item, Obeys R (f item)) :
    Obeys R (item?.mapM f) := by
  cases item? with
  | none => exact pure _
  | some item => exact bind (each item) fun _ => pure _

end Obeys

section Reading

variable [Interning R]

theorem Obeys.heap : Obeys R Compiler.heap := .read _

theorem Obeys.symbols : Obeys R Compiler.symbols := .read _

theorem Obeys.get : Obeys R (get : Compile CompileState) := .read id

theorem Obeys.describe (value : Value) : Obeys R (describe value) := .read _

theorem Obeys.symbolName (id : SymbolId) : Obeys R (symbolName id) := .read _

theorem Obeys.declared (binding : Binding) : Obeys R (declared binding) := .read _

theorem Obeys.malformed (form : Value) (reason : String) :
    Obeys R (malformed form reason : Compile α) :=
  .bind (.describe form) fun _ => .throw _

theorem Obeys.expectArgs (form : Value) (args : List Value) (min : Nat) (max : Option Nat) :
    Obeys R (expectArgs form args min max) := by
  unfold Compiler.expectArgs
  cases max
  all_goals
    dsimp only
    split
    · exact .malformed _ _
    · exact .pure _

theorem Obeys.symbolArg (form value : Value) (what : String) :
    Obeys R (symbolArg form value what) := by
  unfold Compiler.symbolArg
  split
  · exact .pure _
  · exact .malformed _ _

theorem Obeys.listArg (form value : Value) (what : String) :
    Obeys R (listArg form value what) := by
  refine .bind (.heap) fun heap => ?_
  split
  · exact .pure _
  · exact .malformed _ _

theorem Obeys.carOf? (value : Value) : Obeys R (carOf? value) := by
  unfold Compiler.carOf?
  split
  · exact .bind (.heap) fun _ => .pure _
  · exact .pure _

theorem Obeys.restItems? (value : Value) : Obeys R (restItems? value) := by
  unfold Compiler.restItems?
  split
  · exact .bind (.heap) fun _ => .pure _
  · exact .pure _

end Reading

section Literals

variable [Additive R]

theorem Additive.hoist (key : LiteralKey) {make : Compile Expr} (made : Obeys R make) :
    Obeys R (hoist key make) := by
  refine .bind .get fun s => ?_
  split
  · exact .pure _
  · have fresh : Obeys R (onCounters Counters.freshLiteral) := by
      intro s
      unfold stateAfter onCounters
      dsimp only
      split
      · rename_i ended
        split at ended
        · cases ended
        · cases ended
          exact Additive.counters s _
      · rename_i ended
        split at ended
        · cases ended
          exact Interning.refl s
        · cases ended
    refine .bind made fun value => .bind fresh fun name => ?_
    exact .bind (fun s => Additive.literals s _) fun _ => .pure _

theorem Additive.symbolLiteral (id : SymbolId) : Obeys R (symbolLiteral id) := by
  unfold Compiler.symbolLiteral
  split
  · exact .pure _
  · split
    · exact .pure _
    · exact Additive.hoist _ (.bind .symbols fun _ => .pure _)

theorem Additive.literalWithin (depth : Nat) (value : Value) :
    Obeys R (literalWithin depth value) := by
  induction depth generalizing value with
  | zero => exact .throw _
  | succ depth ih =>
      unfold Compiler.literalWithin
      split
      · exact .pure _
      · exact .pure _
      · exact .pure _
      · exact Additive.symbolLiteral _
      · exact Additive.hoist _ (.pure _)
      · exact Additive.hoist _
          (.bind .heap fun _ => .bind (ih _) fun _ => .bind (ih _) fun _ => .pure _)
      · exact Additive.hoist _ (.bind .heap fun _ => .bind (.mapM _ ih) fun _ => .pure _)
      · exact .bind (.describe _) fun _ => .throw _

instance : Gradual R where
  counters s counters _ := Additive.counters s counters
  symbolLiteral := Additive.symbolLiteral
  literalWithin := Additive.literalWithin
  unit {s later} inside := Interning.trans (Additive.literals s {})
    (Interning.trans inside (Additive.literals later s.literals))
  cells := Additive.cells
  bind := Additive.bind
  used := Additive.used
  global := Additive.global

end Literals

section Changes

variable [Gradual R]

theorem Obeys.onCounters (f : Counters → α × Counters)
    (same : ∀ counters, (f counters).2.literals = counters.literals) :
    Obeys R (onCounters f) := by
  intro s
  unfold stateAfter Compiler.onCounters
  dsimp only
  split
  · rename_i ended
    split at ended
    · cases ended
    · cases ended
      exact Gradual.counters s _ (same _)
  · rename_i ended
    split at ended
    · cases ended
      exact Interning.refl s
    · cases ended

theorem Obeys.symbolLiteral (id : SymbolId) : Obeys R (symbolLiteral id) :=
  Gradual.symbolLiteral id

theorem literal_obeys (value : Value) : Obeys R (literal value) :=
  .bind .heap fun _ => Gradual.literalWithin _ _

theorem allocListWithTail_cells (heap : Heap) (items : List Value) (tail : Value) :
    ∃ cells, (heap.allocListWithTail items tail).2 = { heap with cells } := by
  induction items with
  | nil => exact ⟨_, rfl⟩
  | cons item items ih =>
      obtain ⟨cells, eq⟩ := ih
      change ∃ cells', ((heap.allocListWithTail items tail).2.allocCell item _).2 = _
      rw [eq]
      exact ⟨_, rfl⟩

theorem Obeys.newListWithTail (items : List Value) (tail : Value) :
    Obeys R (newListWithTail items tail) := by
  intro s
  obtain ⟨cells, eq⟩ := allocListWithTail_cells s.image.heap items tail
  change R s { s with image := { s.image with heap := (s.image.heap.allocListWithTail items tail).2 } }
  rw [eq]
  exact Gradual.cells s cells

theorem Obeys.newList (items : List Value) : Obeys R (newList items) := .newListWithTail items .nil

theorem Obeys.newCons (car cdr : Value) : Obeys R (newCons car cdr) := .newListWithTail [car] cdr

theorem Obeys.freshVariableFor (id : SymbolId) : Obeys R (freshVariableFor id) :=
  .bind (.symbolName id) fun _ => .onCounters _ fun _ => rfl

theorem Obeys.markUsed (binding : Binding) : Obeys R (markUsed binding) :=
  fun s => Gradual.used s binding

theorem Obeys.newBinding (name : Value) (space : Namespace) (reference : Reference) :
    Obeys R (newBinding name space reference) :=
  fun s => Gradual.bind s name space reference {}

theorem Obeys.resolve (context : Context) (name : Value) (space : Namespace) :
    Obeys R (resolve context name space) := by
  intro s
  change R s { s with bindings := (s.bindings.resolve context.env name space).2 }
  unfold Bindings.resolve
  split
  · exact Interning.refl s
  · split
    · exact Gradual.global s _ _
    · exact Gradual.global s _ _
    · exact Interning.refl s

end Changes

section Subforms

variable {compile : FormCompiler} {context : Context} [Gradual R]
  (forms : ∀ context form, Obeys R (compile context form))

omit [Gradual R] in
include forms in
theorem compileSingle_obeys (form : Value) : Obeys R (compileSingle compile context form) :=
  forms _ _

include forms

theorem compileArgs_obeys (args : List Value) : Obeys R (compileArgs compile context args) :=
  .mapM args fun _ => forms _ _

theorem compileBundle_obeys (form : Value) : Obeys R (compileBundle compile context form) :=
  .bind (forms _ _) fun _ => .pure _

theorem compileCall_obeys (callee : Expr) (args : List Value) :
    Obeys R (compileCall compile context callee args) :=
  .bind (compileArgs_obeys forms args) fun _ => .pure _

end Subforms

end LispScript.Compiler
