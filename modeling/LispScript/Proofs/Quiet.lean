import LispScript.Proofs.Assigned

/-!
Steps that leave scopes and the code of functions alone: every built-in function and every support
routine that calls nothing. Such steps only add bundles and transfers to those there are.
-/

namespace LispScript.Machine

open Script

section Equations

variable {call : Caller} {turns : Nat} {i : Image}

theorem evalExpr_ident_eq (c : Address) (name : String) :
    evalExpr call turns c (.ident name) i = (match i.heap.lookupVariable? c name with
      | some value => (pure value : Run Value)
      | none => Run.fail (.host (name ++ " is not defined"))) i := by
  rw [evalExpr]
  rfl

theorem assignTo_ident_eq (c : Address) (name : String) (value : Value) :
    assignTo call turns c value (.ident name) i = (match i.heap.variableScope? c name with
      | some owner => Run.modifyHeap (·.bindVariable owner name value)
      | none => Run.fail (.host ("assignment to undeclared variable " ++ name))) i := by
  rw [assignTo]
  rfl

theorem callWithin_function (steps : Nat) (address : Address) (args : List Value) :
    callWithin (steps + 1) (.function address) args i =
      (match (i.heap.function address).callable with
        | .closure params body scope => counted do
            let inner ← openActivation scope params args
            resultOf (← execBlock (callWithin steps) steps inner body)
        | .native n => runNative (callWithin steps) n args
        | .primitive p => callPrimitive (callWithin steps) p args) i := by
  rw [callWithin]
  rfl

end Equations

section Arrays

/-- An array with further elements after those of another. -/
def Extends (first second : Array α) : Prop := ∃ more, second = first ++ more

theorem Extends.refl (items : Array α) : Extends items items := ⟨#[], by simp⟩

theorem Extends.trans {first second third : Array α} (extends_ : Extends first second)
    (further : Extends second third) :
    Extends first third := by
  obtain ⟨more, rfl⟩ := extends_
  obtain ⟨rest, rfl⟩ := further
  exact ⟨more ++ rest, by rw [Array.append_assoc]⟩

theorem Extends.push (items : Array α) (item : α) : Extends items (items.push item) :=
  ⟨#[item], Array.push_eq_append⟩

theorem Extends.size_le {first second : Array α} (extends_ : Extends first second) :
    first.size ≤ second.size := by
  obtain ⟨more, rfl⟩ := extends_
  simp

theorem Extends.getD {first second : Array α} (extends_ : Extends first second) {i : Nat}
    (bound : i < first.size) (fallback : α) :
    second.getD i fallback = first.getD i fallback := by
  obtain ⟨more, rfl⟩ := extends_
  simp [Array.getD_eq_getD_getElem?, Array.getElem?_append_left bound]

end Arrays

/-- An image later than another, with the same scopes and the same code of functions. -/
structure Quiet (i j : Image) : Prop where
  scopes : j.heap.scopes = i.heap.scopes
  callables : ∀ a, (j.heap.function a).callable = (i.heap.function a).callable
  vectors : i.heap.vectors.size ≤ j.heap.vectors.size
  bundles : Extends i.heap.bundles j.heap.bundles
  transfers : Extends i.heap.transfers j.heap.transfers

namespace Quiet

variable {i j k : Image}

theorem refl (i : Image) : Quiet i i :=
  ⟨rfl, fun _ => rfl, Nat.le_refl _, .refl _, .refl _⟩

theorem trans (first : Quiet i j) (second : Quiet j k) : Quiet i k :=
  ⟨second.scopes.trans first.scopes, fun a => (second.callables a).trans (first.callables a),
    Nat.le_trans first.vectors second.vectors, first.bundles.trans second.bundles,
    first.transfers.trans second.transfers⟩

end Quiet

/-- The image that a run ends with. -/
def imageOf : EStateM.Result ε Image α → Image
  | .ok _ image => image
  | .error _ image => image

/-- A step that is quiet, however it ends. -/
def IsQuiet (step : Run α) : Prop := ∀ i, Quiet i (imageOf (step i))

namespace IsQuiet

variable {step : Run α} {rest : α → Run β}

theorem pure (a : α) : IsQuiet (Pure.pure a) := fun i => .refl i

theorem fail (error : RuntimeError) : IsQuiet (α := α) (Run.fail error) := fun i => .refl i

theorem bind (first : IsQuiet step) (second : ∀ a, IsQuiet (rest a)) : IsQuiet (step >>= rest) := by
  intro i
  change Quiet i (imageOf (EStateM.bind step rest i))
  rw [EStateM.bind]
  have quiet := first i
  cases ended : step i with
  | ok a j =>
      rw [ended] at quiet
      exact quiet.trans (second a j)
  | error interrupt j =>
      rw [ended] at quiet
      exact quiet

theorem heap : IsQuiet Run.heap := fun i => .refl i

theorem describe (value : Value) : IsQuiet (Run.describe value) := fun i => .refl i

theorem valuesOf (value : Value) : IsQuiet (valuesOf value) := fun i => .refl i

theorem onSymbols (f : SymbolTable → α × SymbolTable) : IsQuiet (Run.onSymbols f) :=
  fun _ => ⟨rfl, fun _ => rfl, Nat.le_refl _, .refl _, .refl _⟩

theorem newString (text : String) : IsQuiet (Run.newString text) :=
  fun _ => ⟨rfl, fun _ => rfl, Nat.le_refl _, .refl _, .refl _⟩

theorem allocCell (car cdr : Value) : IsQuiet (Run.onHeap (·.allocCell car cdr)) :=
  fun _ => ⟨rfl, fun _ => rfl, Nat.le_refl _, .refl _, .refl _⟩

theorem allocVector (items : Array Value) : IsQuiet (Run.onHeap (·.allocVector items)) := by
  refine fun i => ⟨rfl, fun _ => rfl, ?_, .refl _, .refl _⟩
  change _ ≤ (i.heap.vectors.push items).size
  simp

theorem allocBundle (values : List Value) : IsQuiet (Run.onHeap (·.allocBundle values)) :=
  fun _ => ⟨rfl, fun _ => rfl, Nat.le_refl _, .push _ _, .refl _⟩

theorem allocTransfer (transfer : Transfer) : IsQuiet (Run.onHeap (·.allocTransfer transfer)) :=
  fun _ => ⟨rfl, fun _ => rfl, Nat.le_refl _, .refl _, .push _ _⟩

theorem setCar (address : Address) (value : Value) :
    IsQuiet (Run.modifyHeap (·.setCar address value)) :=
  fun _ => ⟨rfl, fun _ => rfl, Nat.le_refl _, .refl _, .refl _⟩

theorem setCdr (address : Address) (value : Value) :
    IsQuiet (Run.modifyHeap (·.setCdr address value)) :=
  fun _ => ⟨rfl, fun _ => rfl, Nat.le_refl _, .refl _, .refl _⟩

theorem setElement (address position : Nat) (value : Value) :
    IsQuiet (Run.modifyHeap (·.setElement address position value)) := by
  refine fun i => ⟨rfl, fun _ => rfl, ?_, .refl _, .refl _⟩
  change i.heap.vectors.size ≤ (i.heap.vectors.modify address _).size
  simp

/-- Properties are no code. -/
theorem setFunctionProperty (address : Address) (property : String) (value : Value) :
    IsQuiet (Run.modifyHeap (·.setProperty address property value)) := by
  refine fun i => ⟨rfl, fun a => ?_, Nat.le_refl _, .refl _, .refl _⟩
  change ((i.heap.functions.modify address _).getD a default).callable =
    (i.heap.functions.getD a default).callable
  simp only [Array.getD_eq_getD_getElem?, Array.getElem?_modify]
  split
  · cases i.heap.functions[a]? <;> rfl
  · rfl

theorem allocListWithTail (items : List Value) (tail : Value) :
    IsQuiet (Run.onHeap (·.allocListWithTail items tail)) := by
  intro i
  have same : ∀ heap : Heap, (heap.allocListWithTail items tail).2.scopes = heap.scopes ∧
      (heap.allocListWithTail items tail).2.functions = heap.functions ∧
      (heap.allocListWithTail items tail).2.vectors = heap.vectors ∧
      (heap.allocListWithTail items tail).2.bundles = heap.bundles ∧
      (heap.allocListWithTail items tail).2.transfers = heap.transfers := by
    intro heap
    induction items with
    | nil => exact ⟨rfl, rfl, rfl, rfl, rfl⟩
    | cons item rest ih => exact ih
  obtain ⟨scopes, functions, vectors, bundles, transfers⟩ := same i.heap
  refine ⟨scopes, fun a => ?_, ?_, ?_, ?_⟩
  · change ((i.heap.allocListWithTail items tail).2.functions.getD a default).callable = _
    rw [functions]
    rfl
  · exact Nat.le_of_eq (congrArg Array.size vectors).symm
  · exact bundles ▸ .refl _
  · exact transfers ▸ .refl _

theorem newVector (items : List Value) : IsQuiet (newVector items) := allocVector _

end IsQuiet

section Texts

variable {i j : Image}

/-- Texts are made of symbols and objects. -/
theorem print_congr (symbols : i.symbols = j.symbols) (heap : i.heap = j.heap) (escape : Bool)
    (budget : Nat) (value : Value) :
    Printer.print i escape budget value = Printer.print j escape budget value := by
  induction budget generalizing value with
  | zero => rfl
  | succ budget ih =>
      have parts : Printer.print i escape budget = Printer.print j escape budget := funext ih
      cases value <;> simp only [Printer.print, symbols, heap, parts]

theorem describe_congr (symbols : i.symbols = j.symbols) (heap : i.heap = j.heap) (value : Value) :
    i.print value = j.print value :=
  print_congr symbols heap _ _ value

theorem formatMessage_congr (symbols : i.symbols = j.symbols) (heap : i.heap = j.heap)
    (cs : List Char) (args : List Value) :
    formatMessage i cs args = formatMessage j cs args := by
  have print : i.print = j.print := funext (describe_congr symbols heap)
  have princ : i.princ = j.princ := funext (print_congr symbols heap _ _)
  fun_induction formatMessage i cs args <;> simp_all [formatMessage]

end Texts

section Symbols

/-- A table later than another, with all its symbols, each at home where it was. -/
structure KeepsHomes (table later : SymbolTable) : Prop where
  size : table.symbols.size ≤ later.symbols.size
  home : ∀ id : SymbolId, id.index < table.symbols.size →
    (later.symbol id).home = (table.symbol id).home

theorem KeepsHomes.refl (table : SymbolTable) : KeepsHomes table table :=
  ⟨Nat.le_refl _, fun _ _ => rfl⟩

theorem KeepsHomes.trans {table later last : SymbolTable} (first : KeepsHomes table later)
    (second : KeepsHomes later last) : KeepsHomes table last where
  size := Nat.le_trans first.size second.size
  home id known :=
    (second.home id (Nat.lt_of_lt_of_le known first.size)).trans (first.home id known)

theorem KeepsHomes.push {table later : SymbolTable} {symbol : Symbol}
    (pushed : later.symbols = table.symbols.push symbol) : KeepsHomes table later where
  size := by simp [pushed]
  home id known := by
    simp [SymbolTable.symbol, pushed, Array.getD_eq_getD_getElem?, Array.getElem?_push,
      Nat.ne_of_lt known]

variable (table : SymbolTable)

theorem keepsHomes_updateSymbol (id : SymbolId) {f : Symbol → Symbol}
    (home : ∀ symbol, (f symbol).home = symbol.home) : KeepsHomes table (table.updateSymbol id f) where
  size := by simp [SymbolTable.updateSymbol]
  home other known := by
    simp only [SymbolTable.symbol, SymbolTable.updateSymbol, Array.getD_eq_getD_getElem?,
      Array.getElem?_modify]
    split
    · rw [Array.getElem?_eq_getElem known]
      exact home _
    · rfl

theorem keepsHomes_makeSymbol (name : String) : KeepsHomes table (table.makeSymbol name).2 :=
  .push rfl

theorem keepsHomes_intern (name : String) (package : PackageId) :
    KeepsHomes table (table.intern name package).2 := by
  simp only [SymbolTable.intern, SymbolTable.internWithStatus]
  split
  · exact .refl table
  · split <;> exact .push rfl

end Symbols

/-- Steps that are put together from looks at symbols and objects, changes of symbols that let none
go, and quiet changes of objects. -/
inductive Elementary : {α : Type} → Run α → Prop where
  | pure (a : α) : Elementary (Pure.pure a)
  | fail (error : RuntimeError) : Elementary (α := α) (Run.fail error)
  | bind {step : Run α} {rest : α → Run β} (first : Elementary step)
      (second : ∀ a, Elementary (rest a)) : Elementary (step >>= rest)
  | look {f : Image → α}
      (same : ∀ i j : Image, i.symbols = j.symbols → i.heap = j.heap → f i = f j) :
      Elementary fun image => .ok (f image) image
  | onSymbols {f : SymbolTable → α × SymbolTable} (keeps : ∀ table, KeepsHomes table (f table).2) :
      Elementary (Run.onSymbols f)
  | onHeap {f : Heap → α × Heap} (quiet : IsQuiet (Run.onHeap f)) : Elementary (Run.onHeap f)

namespace Elementary

theorem quiet {step : Run α} (elementary : Elementary step) : IsQuiet step := by
  induction elementary with
  | pure a => exact .pure a
  | fail error => exact .fail error
  | bind _ _ first second => exact .bind first second
  | look same => exact fun i => .refl i
  | onSymbols _ => exact .onSymbols _
  | onHeap quiet => exact quiet

theorem map {step : Run α} (f : α → β) (first : Elementary step) : Elementary (f <$> step) := by
  rw [map_eq_pure_bind]
  exact first.bind fun a => .pure (f a)

theorem heap : Elementary Run.heap := .look fun _ _ _ heap => heap

theorem symbols : Elementary Run.symbols := .look fun _ _ symbols _ => symbols

theorem describe (value : Value) : Elementary (Run.describe value) :=
  .look fun _ _ symbols heap => describe_congr symbols heap value

theorem valuesOf (value : Value) : Elementary (valuesOf value) :=
  .look fun i j _ heap => by cases value <;> simp only [Image.valuesOf, heap]

theorem typeError (value : Value) (expected : String) :
    Elementary (α := α) (Run.typeError value expected) :=
  .bind (.describe value) fun _ => .fail _

theorem updateSymbol (id : SymbolId) {f : Symbol → Symbol}
    (home : ∀ symbol, (f symbol).home = symbol.home) :
    Elementary (Run.modifySymbols (·.updateSymbol id f)) :=
  .onSymbols (f := fun table => ((), table.updateSymbol id f)) fun table =>
    keepsHomes_updateSymbol table id home

theorem intern (name : String) (package : PackageId) :
    Elementary (Run.onSymbols (·.intern name package)) :=
  .onSymbols fun table => keepsHomes_intern table name package

theorem newSymbol (name : String) : Elementary (Run.onSymbols (·.makeSymbol name)) :=
  .onSymbols fun table => keepsHomes_makeSymbol table name

theorem gensym (stem : String) : Elementary (Run.onSymbols (·.gensym stem)) :=
  .onSymbols fun _ => .push rfl

theorem newString (text : String) : Elementary (Run.newString text) := .onHeap (.newString text)

theorem allocCell (car cdr : Value) : Elementary (Run.onHeap (·.allocCell car cdr)) :=
  .onHeap (.allocCell car cdr)

theorem allocVector (items : Array Value) : Elementary (Run.onHeap (·.allocVector items)) :=
  .onHeap (.allocVector items)

theorem allocBundle (values : List Value) : Elementary (Run.onHeap (·.allocBundle values)) :=
  .onHeap (.allocBundle values)

theorem allocTransfer (transfer : Transfer) :
    Elementary (Run.onHeap (·.allocTransfer transfer)) :=
  .onHeap (.allocTransfer transfer)

/-- A change of objects that gives nothing. -/
theorem modifyHeap {f : Heap → Heap} (quiet : IsQuiet (Run.modifyHeap f)) :
    Elementary (Run.modifyHeap f) :=
  .onHeap (f := fun heap => ((), f heap)) quiet

theorem setCar (address : Address) (value : Value) :
    Elementary (Run.modifyHeap (·.setCar address value)) :=
  .modifyHeap (.setCar address value)

theorem setCdr (address : Address) (value : Value) :
    Elementary (Run.modifyHeap (·.setCdr address value)) :=
  .modifyHeap (.setCdr address value)

theorem setElement (address position : Nat) (value : Value) :
    Elementary (Run.modifyHeap (·.setElement address position value)) :=
  .modifyHeap (.setElement address position value)

theorem setFunctionProperty (address : Address) (property : String) (value : Value) :
    Elementary (Run.modifyHeap (·.setProperty address property value)) :=
  .modifyHeap (.setFunctionProperty address property value)

theorem allocListWithTail (items : List Value) (tail : Value) :
    Elementary (Run.onHeap (·.allocListWithTail items tail)) :=
  .onHeap (.allocListWithTail items tail)

theorem newList (items : List Value) : Elementary (newList items) := allocListWithTail items .nil

theorem newVector (items : List Value) : Elementary (newVector items) := allocVector _

theorem mapM {f : α → Run β} (each : ∀ a, Elementary (f a)) (items : List α) :
    Elementary (items.mapM f) := by
  induction items with
  | nil =>
      rw [List.mapM_nil]
      exact pure _
  | cons item rest ih =>
      rw [List.mapM_cons]
      exact (each item).bind fun _ => ih.bind fun _ => pure _

end Elementary

section Builtins

theorem elementary_numberOf (value : Value) : Elementary (numberOf value) := by
  cases value <;> first | exact .pure _ | exact .typeError _ _

theorem elementary_symbolOf (value : Value) : Elementary (symbolOf value) := by
  unfold symbolOf
  split
  · exact .pure _
  · exact .typeError _ _

theorem elementary_listItems (value : Value) : Elementary (listItems value) := by
  refine .bind .heap fun heap => ?_
  split
  · exact .pure _
  · exact .typeError _ _

theorem elementary_accumulate (op : Float → Float → Float) (total : Float) (args : List Value) :
    Elementary (accumulate op total args) := by
  induction args generalizing total with
  | nil => exact .pure _
  | cons value rest ih => exact .bind (elementary_numberOf value) fun n => ih _

theorem elementary_divideBy (total : Float) (args : List Value) : Elementary (divideBy total args) := by
  induction args generalizing total with
  | nil => exact .pure _
  | cons value rest ih =>
      refine .bind (elementary_numberOf value) fun divisor => ?_
      split
      · exact .fail _
      · exact ih _

theorem elementary_chainFrom (related : Float → Float → Bool) (previous : Float) (args : List Value) :
    Elementary (chainFrom related previous args) := by
  induction args generalizing previous with
  | nil => exact .pure _
  | cons value rest ih =>
      refine .bind (elementary_numberOf value) fun current => ?_
      split
      · exact ih _
      · exact .pure _

theorem elementary_chain (related : Float → Float → Bool) (args : List Value) :
    Elementary (chain related args) :=
  .bind (elementary_numberOf _) fun _ => elementary_chainFrom related _ _

theorem elementary_subtract (args : List Value) : Elementary (subtract args) := by
  refine .bind (elementary_numberOf _) fun first => ?_
  split
  · exact .pure _
  · exact elementary_accumulate _ _ _

theorem elementary_divide (args : List Value) : Elementary (divide args) := by
  refine .bind (elementary_numberOf _) fun first => ?_
  split
  · exact elementary_divideBy _ _
  · exact elementary_divideBy _ _

theorem elementary_floorMod (args : List Value) : Elementary (floorMod args) := by
  refine .bind (elementary_numberOf _) fun a => .bind (elementary_numberOf _) fun b => ?_
  split
  · exact .fail _
  · exact .pure _

theorem elementary_carOf (value : Value) : Elementary (carOf value) := by
  cases value with
  | nil => exact .pure _
  | cons address => exact .bind .heap fun _ => .pure _
  | _ => exact .typeError _ _

theorem elementary_cdrOf (value : Value) : Elementary (cdrOf value) := by
  cases value with
  | nil => exact .pure _
  | cons address => exact .bind .heap fun _ => .pure _
  | _ => exact .typeError _ _

theorem elementary_replaceCar (cell value : Value) : Elementary (replaceCar cell value) := by
  cases cell with
  | cons address => exact .bind (.setCar address value) fun _ => .pure _
  | _ => exact .typeError _ _

theorem elementary_replaceCdr (cell value : Value) : Elementary (replaceCdr cell value) := by
  cases cell with
  | cons address => exact .bind (.setCdr address value) fun _ => .pure _
  | _ => exact .typeError _ _

theorem elementary_listStar (args : List Value) : Elementary (listStar args) := by
  unfold listStar
  split
  · exact .allocListWithTail _ _
  · exact .pure _

theorem elementary_appendLists (args : List Value) : Elementary (appendLists args) := by
  unfold appendLists
  split
  · exact .bind (.mapM elementary_listItems _) fun _ => .allocListWithTail _ _
  · exact .pure _

theorem elementary_lengthOf (value : Value) : Elementary (lengthOf value) := by
  cases value with
  | vector address => exact .bind .heap fun _ => .pure _
  | string address text => exact .pure _
  | _ => exact .bind (elementary_listItems _) fun _ => .pure _

theorem elementary_reverseOf (value : Value) : Elementary (reverseOf value) := by
  cases value with
  | vector address => exact .bind .heap fun _ => .newVector _
  | string address text => exact .newString _
  | _ => exact .bind (elementary_listItems _) fun _ => .newList _

theorem elementary_nthOf (n : Nat) (value : Value) : Elementary (nthOf n value) := by
  induction n generalizing value with
  | zero => exact elementary_carOf value
  | succ n ih =>
      cases value with
      | cons address => exact .bind .heap fun _ => ih _
      | nil => exact .pure _
      | _ => exact .typeError _ _

theorem elementary_symbolValue (value : Value) : Elementary (symbolValue value) := by
  refine .bind (elementary_symbolOf value) fun id => .bind .symbols fun table => ?_
  split
  · exact .pure _
  · exact .bind (.describe _) fun _ => .fail _

theorem elementary_symbolFunction (value : Value) : Elementary (symbolFunction value) := by
  refine .bind (elementary_symbolOf value) fun id => .bind .symbols fun table => ?_
  split
  · exact .pure _
  · exact .bind (.describe _) fun _ => .fail _

theorem elementary_setValue (place value : Value) : Elementary (setValue place value) :=
  .bind (elementary_symbolOf place) fun _ => .bind (.updateSymbol _ fun _ => rfl) fun _ => .pure _

theorem elementary_setFunction (place function : Value) : Elementary (setFunction place function) := by
  refine .bind (elementary_symbolOf place) fun id => ?_
  split
  · exact .bind (.updateSymbol _ fun _ => rfl) fun _ => .pure _
  · exact .typeError _ _

theorem elementary_getFromPlist (symbol indicator fallback : Value) :
    Elementary (getFromPlist symbol indicator fallback) :=
  .bind (elementary_symbolOf symbol) fun _ => .bind .symbols fun _ =>
    .bind (elementary_listItems _) fun _ => .pure _

theorem elementary_packageNamed (name : String) : Elementary (packageNamed name) := by
  refine .bind .symbols fun table => ?_
  split
  · exact .pure _
  · exact .fail _

theorem elementary_packageOf (designator : Value) : Elementary (packageOf designator) := by
  cases designator with
  | package id => exact .pure _
  | string address name => exact elementary_packageNamed name
  | symbol id => exact .bind .symbols fun _ => elementary_packageNamed _
  | _ => exact .typeError _ _

theorem elementary_intern (args : List Value) : Elementary (intern args) := by
  unfold intern
  split
  · dsimp only
    split
    · exact .bind (elementary_packageOf _) fun _ => .map _ (.intern _ _)
    · exact .bind (.map _ .symbols) fun _ => .map _ (.intern _ _)
  · exact .typeError _ _

theorem elementary_makeSymbol (name : Value) : Elementary (makeSymbol name) := by
  cases name with
  | string address text => exact .map _ (.newSymbol _)
  | _ => exact .typeError _ _

theorem elementary_docstring (function : Value) : Elementary (match function with
    | .function address => do
        match (← Run.heap).property address "docstring" with
        | .undefined => return .nil
        | text => return text
    | _ => return .nil : Run Value) := by
  split
  · refine .bind .heap fun heap => ?_
    split <;> exact .pure _
  · exact .pure _

theorem elementary_documentation (target : Value) : Elementary (documentation target) := by
  unfold documentation
  dsimp only
  split
  · exact .bind .symbols fun _ => .bind (.pure _) elementary_docstring
  · exact .bind (.pure _) elementary_docstring

theorem elementary_itemAt (sequence : Value) (n : Float) (found : Option Value) :
    Elementary (match found with
      | some item => return item
      | none => do
          Run.fail (.signal ("index " ++ Number.messageText n ++ " out of bounds for " ++
            (← Run.describe sequence))) : Run Value) := by
  split
  · exact .pure _
  · exact .bind (.describe _) fun _ => .fail _

theorem elementary_elementOf (sequence position : Value) : Elementary (elementOf sequence position) := by
  refine .bind (elementary_numberOf position) fun n => ?_
  dsimp only
  split
  · exact .bind .heap fun _ => .bind (.pure _) (elementary_itemAt _ n)
  · exact .bind (.pure _) (elementary_itemAt _ n)
  · exact .bind (.typeError _ _) (elementary_itemAt _ n)

theorem elementary_signalError (args : List Value) : Elementary (signalError args) := by
  unfold signalError
  split
  · rename_i control _
    have message : Elementary fun image => .ok (formatMessage image control.toList args.tail) image :=
      .look fun _ _ symbols heap => formatMessage_congr symbols heap _ _
    exact message.bind fun text => .fail (.signal text)
  · exact .bind (.describe _) fun _ => .fail _

theorem elementary_runBuiltin (p : Primitive) (args : List Value) : Elementary (runBuiltin p args) := by
  unfold runBuiltin
  cases p with
  | add => exact elementary_accumulate _ _ _
  | sub => exact elementary_subtract _
  | mul => exact elementary_accumulate _ _ _
  | div => exact elementary_divide _
  | inc => exact .bind (elementary_numberOf _) fun _ => .pure _
  | dec => exact .bind (elementary_numberOf _) fun _ => .pure _
  | floorMod => exact elementary_floorMod _
  | numEq => exact elementary_chain _ _
  | lt => exact elementary_chain _ _
  | gt => exact elementary_chain _ _
  | le => exact elementary_chain _ _
  | ge => exact elementary_chain _ _
  | cons => exact .allocCell _ _
  | car => exact elementary_carOf _
  | cdr => exact elementary_cdrOf _
  | rplaca => exact elementary_replaceCar _ _
  | rplacd => exact elementary_replaceCdr _ _
  | list => exact .newList _
  | listStar => exact elementary_listStar _
  | append => exact elementary_appendLists _
  | length => exact elementary_lengthOf _
  | reverse => exact elementary_reverseOf _
  | nth => exact .bind (elementary_numberOf _) fun _ => elementary_nthOf _ _
  | equal => exact .bind .heap fun _ => .pure _
  | keywordp =>
      dsimp only
      split
      · exact .bind .symbols fun _ => .pure _
      · exact .pure _
  | symbolValue => exact elementary_symbolValue _
  | symbolFunction => exact elementary_symbolFunction _
  | set => exact elementary_setValue _ _
  | fset => exact elementary_setFunction _ _
  | boundp => exact .bind .symbols fun _ => .bind (elementary_symbolOf _) fun _ => .pure _
  | fboundp => exact .bind .symbols fun _ => .bind (elementary_symbolOf _) fun _ => .pure _
  | symbolName =>
      exact .bind .symbols fun _ => .bind (elementary_symbolOf _) fun _ => .newString _
  | symbolPlist => exact .bind .symbols fun _ => .bind (elementary_symbolOf _) fun _ => .pure _
  | get => exact elementary_getFromPlist _ _ _
  | intern => exact elementary_intern _
  | makeSymbol => exact elementary_makeSymbol _
  | gensym => exact .map _ (.gensym _)
  | documentation => exact elementary_documentation _
  | vector => exact .newVector _
  | aref => exact elementary_elementOf _ _
  | error => exact elementary_signalError _
  | _ => exact .pure _

end Builtins

section Routines

theorem elementary_count (value : Value) : Elementary (count value) := by
  unfold count
  split
  · split
    · exact .pure _
    · exact .typeError _ _
  · exact .typeError _ _

theorem elementary_packValues (values : List Value) : Elementary (packValues values) := by
  unfold packValues
  split
  · exact .pure _
  · exact .allocBundle _

theorem elementary_coerceFunction (designator : Value) : Elementary (coerceFunction designator) := by
  unfold coerceFunction
  split
  · exact .pure _
  · split
    · refine .bind .symbols fun table => ?_
      split
      · exact .pure _
      · exact .bind (.describe _) fun _ => .fail _
    · exact .bind (.describe _) fun _ => .fail _

theorem elementary_characterOf (value : Value) : Elementary (characterOf value) := by
  refine .bind (elementary_count value) fun n => ?_
  dsimp only
  split
  · exact .pure _
  · exact .typeError _ _

theorem elementary_checkCount (args : List Value) (ok : Nat → Nat → Bool) (expected : Nat → String) :
    Elementary (checkCount args ok expected) := by
  refine .bind (elementary_count _) fun got => .bind (elementary_count _) fun limit => ?_
  split
  · exact .pure _
  · exact .fail _

theorem elementary_vectorItems (value : Value) : Elementary (vectorItems value) := by
  cases value with
  | vector address => exact .bind .heap fun _ => .pure _
  | _ => exact .typeError _ _

theorem elementary_appendValues (args : List Value) : Elementary (appendValues args) :=
  .bind (elementary_vectorItems _) fun _ => .bind (.valuesOf _) fun _ => .allocVector _

theorem elementary_makeTransfer (args : List Value) : Elementary (makeTransfer args) := by
  unfold makeTransfer
  dsimp only
  split
  · exact .fail _
  · split
    · exact .bind (.pure _) fun _ => .allocTransfer _
    · exact .bind (.pure _) fun _ => .allocTransfer _
    · exact .bind (.map _ (.describe _)) fun _ => .allocTransfer _

theorem elementary_internSymbol (args : List Value) : Elementary (internSymbol args) := by
  unfold internSymbol
  split
  · refine .bind .symbols fun table => ?_
    split
    · exact .map _ (.intern _ _)
    · split
      · exact .map _ (.intern _ _)
      · exact .fail _
  · exact .typeError _ _

theorem elementary_symbolKnown (name : String) (known : Option SymbolId) : Elementary (match known with
    | some id => return .symbol id
    | none => Value.symbol <$> Run.onSymbols (·.makeSymbol name) : Run Value) := by
  split
  · exact .pure _
  · exact .map _ (.newSymbol _)

theorem elementary_uninternedSymbol (args : List Value) : Elementary (uninternedSymbol args) := by
  unfold uninternedSymbol
  split
  · dsimp only
    split
    · exact .bind .symbols fun _ => .bind (.pure _) (elementary_symbolKnown _)
    · exact .bind (.pure _) (elementary_symbolKnown _)
  · exact .typeError _ _

theorem elementary_runRoutine (r : Routine) (args : List Value) : Elementary (runRoutine r args) := by
  unfold runRoutine
  cases r with
  | packValues => exact elementary_packValues _
  | primaryValue => exact .pure _
  | appendValues => exact elementary_appendValues _
  | coerceFunction => exact elementary_coerceFunction _
  | character => exact elementary_characterOf _
  | checkArgs => exact elementary_checkCount _ _ _
  | checkArgsAtLeast => exact elementary_checkCount _ _ _
  | checkArgsAtMost => exact elementary_checkCount _ _ _
  | checkKeywordPairs =>
      refine .bind (elementary_count _) fun n => ?_
      split
      · exact .pure _
      · exact .fail _
  | unknownKeyword => exact .bind (.describe _) fun _ => .fail _
  | transfer => exact elementary_makeTransfer _
  | internSymbol => exact elementary_internSymbol _
  | uninternedSymbol => exact elementary_uninternedSymbol _
  | deliverValues => exact .pure _
  | applyVector => exact .pure _

end Routines

section Members

theorem elementary_getProperty (object : Value) (property : String) :
    Elementary (getProperty object property) := by
  have symbols : ∀ id, Elementary (symbolProperty id property) := by
    intro id
    refine .bind .symbols fun table => ?_
    dsimp only
    split <;> first | exact .pure _ | exact .newString _
  unfold getProperty
  split
  · exact symbols _
  · exact symbols _
  · exact .bind .heap fun _ => .pure _
  · split
    · exact .bind .heap fun _ => .pure _
    · exact .bind .heap fun _ => .pure _
    · exact .pure _
  · split
    · exact .bind .heap fun _ => .pure _
    · exact .pure _
  · split <;> exact .pure _
  · split
    · exact .bind .heap fun _ => .pure _
    · exact .pure _
  · refine .bind .heap fun heap => ?_
    unfold transferProperty
    split
    · exact .newString _
    · exact .pure _
    · exact .pure _
    · split
      · exact .newString _
      · exact .pure _
    · exact .pure _
  · exact .pure _

theorem elementary_cannotSet (object : Value) (property : String) :
    Elementary (cannotSet object property) :=
  .bind (.describe _) fun _ => .fail _

theorem elementary_setProperty (object : Value) (property : String) (value : Value) :
    Elementary (setProperty object property value) := by
  have symbols : ∀ id, Elementary (setSymbolProperty id property value) := by
    intro id
    unfold setSymbolProperty
    split <;> first | exact .updateSymbol _ fun _ => rfl | exact elementary_cannotSet _ _
  unfold setProperty
  split
  · exact symbols _
  · exact symbols _
  · exact .setFunctionProperty _ _ _
  · split
    · exact .setCar _ _
    · exact .setCdr _ _
    · exact elementary_cannotSet _ _
  · exact elementary_cannotSet _ _

theorem elementary_getElement (object position : Value) : Elementary (getElement object position) := by
  unfold getElement
  split
  · split
    · dsimp only
      split
      · exact .bind .heap fun _ => .pure _
      · exact .bind .heap fun _ => .pure _
      · exact .pure _
      · exact .pure _
    · exact .pure _
  · exact .pure _

theorem elementary_setElement (object position value : Value) :
    Elementary (setElement object position value) := by
  unfold setElement
  split
  · split
    · exact .setElement _ _ _
    · exact .typeError _ _
  · exact .typeError _ _

theorem elementary_applyBinary (op : BinaryOp) (left right : Value) :
    Elementary (applyBinary op left right) := by
  have strings : ∀ a b, Elementary (onStrings op left a b) := by
    intro a b
    unfold onStrings
    split <;> first | exact .newString _ | exact .pure _ | exact .typeError _ _
  unfold applyBinary
  split
  · exact .pure _
  · exact .pure _
  · exact .pure _
  · exact .pure _
  · split
    · split
      · exact .pure _
      · exact .fail _
    · exact strings _ _
    · exact .typeError _ _
    · exact .typeError _ _

theorem elementary_applyUnary (op : UnaryOp) (operand : Value) : Elementary (applyUnary op operand) := by
  unfold applyUnary
  split
  · exact .pure _
  · split
    · exact .pure _
    · exact .typeError _ _

end Members

end LispScript.Machine
