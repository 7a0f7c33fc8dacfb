import LispScript.Proofs.Rules

/-!
When a world describes an image: every object holds values of the kinds that the world gives it, and
every closure is code that the rules admit in the scope it was made in.
-/

namespace LispScript.Discipline

open Script

/-- Code that a function can have as its body, under any acceptor and number of arguments. -/
def Frame.IsBody (frame : Frame) (hosts : List String) (code : List Stmt) : Prop :=
  frame.CanEnter hosts ∧ ∀ manyValues count, 1 ≤ count → count < Number.exactLimit →
    Derivable (frame.enter manyValues count hosts) (.returns code (.result manyValues))

/-- What a package has under another name than `NIL` is another symbol. -/
def KnowsNil (package : Package) : Prop :=
  ∀ name, package.internals.find? name = some SymbolId.nil ∨
    package.externals.find? name = some SymbolId.nil → name = "NIL"

namespace World

variable (W : World)

/-- What a frame tells of variables holds at a scope. -/
def Admits (frame : Frame) (b : Nat) : Prop :=
  ∃ layout : Layout, W.scopes[b]? = some layout ∧
    ∀ name kind, frame.kinds name = some kind → layout name = some kind

def CallableOk : Callable → Prop
  | .closure params code scope => ∃ frame hosts, params = "values" :: hosts ∧
      Frame.IsBody frame hosts code ∧ W.Admits frame scope
  | .native _ => False
  | .primitive _ => True

def TransferOk (transfer : Transfer) : Prop :=
  ∃ target carried, Handles transfer.kind target carried ∧ W.Has target transfer.target ∧
    W.Has carried transfer.payload

/-- The contents that a vector in a role has. -/
def Fits (items : Array Value) : Role → Prop
  | .lisp => ∀ item ∈ items, W.Datum item
  | .arguments count => (items.size = count ∧ 1 ≤ count ∧ count < Number.exactLimit) ∧
      ∀ i item, 1 ≤ i → items[i]? = some item → W.Datum item
  | .collector manyValues => ∃ rest, items.toList = acceptorValue manyValues :: rest ∧
      ∀ item ∈ rest, W.Datum item
  | .token _ _ _ | .other => True

/-- Each variable of the layout is there, in the scope itself or in the one around it. -/
structure ScopeOk (layouts : List Layout) (b : Nat) (layout : Layout) (scope : Scope) :
    Prop where
  found : ∀ name kind, layout name = some kind →
    (∃ value, scope.vars[name]? = some value ∧ W.Has kind value) ∨
      scope.vars[name]? = none ∧ ∃ (parent : Nat) (outer : Layout),
        scope.parent = some parent ∧ parent < b ∧ layouts[parent]? = some outer ∧
          outer name = some kind
  acceptor : ∀ value, scope.vars["values"]? = some value →
    ∃ manyValues, value = acceptorValue manyValues
  token : ∀ name held value, layout name = some held → held.IsToken →
    scope.vars[name]? = some value → W.IsVector (.token held b name) value
  hidden : ∀ name value, scope.vars[name]? = some value → layout name = none →
    name ∉ reservedNames → W.Has .optional value

def CellsOk (cells : Array Cell) : Prop :=
  ∀ cell ∈ cells, W.Datum cell.car ∧ W.Datum cell.cdr

def BundlesOk (bundles : Array (List Value)) : Prop :=
  ∀ bundle ∈ bundles, ∀ value ∈ bundle, W.Datum value

def VectorsOk (roles : List Role) (vectors : Array (Array Value)) : Prop :=
  ∀ (a : Nat) role, roles[a]? = some role → W.Fits (vectors.getD a #[]) role

def TransfersOk (transfers : Array Transfer) : Prop :=
  ∀ transfer ∈ transfers, W.TransferOk transfer

def ScopesOk (layouts : List Layout) (scopes : Array Scope) : Prop :=
  ∀ (b : Nat) layout, layouts[b]? = some layout →
    W.ScopeOk layouts b layout (scopes.getD b default)

/-- The functions in `owed` are not ready to be called. -/
structure FunctionsOk (owed : Address → Prop) (functions : Array FunctionObject) : Prop where
  natives : ∀ n, (functions.getD (Image.nativeAddress n) default).callable = .native n
  properties : ∀ a, firstFunction ≤ a → ∀ entry ∈ (functions.getD a default).properties,
    W.Datum entry.2
  callables : ∀ a, firstFunction ≤ a → a < functions.size → ¬ owed a →
    W.CallableOk (functions.getD a default).callable

structure SymbolOk (symbol : Symbol) : Prop where
  value : ∀ value ∈ symbol.value, W.Datum value
  function : ∀ function ∈ symbol.function, W.Datum function
  plist : W.Datum symbol.plist

structure SymbolsOk (table : SymbolTable) : Prop where
  symbols : ∀ symbol ∈ table.symbols, W.SymbolOk symbol
  /-- `NIL` has a home, and so is not an uninterned symbol. -/
  nil : ∃ symbol, table.symbols[0]? = some symbol ∧ symbol.home.isSome
  packages : table.packages.toList.map Package.name = packageNames
  named : ∀ name ∈ packageNames, (table.findPackage? name).isSome
  nilName : table.symbolName SymbolId.nil = "NIL"
  entries : ∀ package ∈ table.packages, KnowsNil package

/-- An image that is as a world tells, but for the functions in `owed`. -/
structure DescribesBut (owed : Address → Prop) (image : Image) : Prop where
  scopeCount : W.scopes.length = image.heap.scopes.size
  vectorCount : W.vectors.length = image.heap.vectors.size
  functionCount : W.functions = image.heap.functions.size
  transferCount : W.transfers = image.heap.transfers.size
  cells : W.CellsOk image.heap.cells
  bundles : W.BundlesOk image.heap.bundles
  vectors : W.VectorsOk W.vectors image.heap.vectors
  functions : W.FunctionsOk owed image.heap.functions
  transfers : W.TransfersOk image.heap.transfers
  scopes : W.ScopesOk W.scopes image.heap.scopes
  symbols : W.SymbolsOk image.symbols

/-- An image that is as a world tells. -/
abbrev Describes (image : Image) : Prop := W.DescribesBut (fun _ => False) image

end World

section Growth

variable {W W' : World}

theorem World.Grows.admits (grows : W.Grows W') {frame : Frame} {b : Nat}
    (admits : W.Admits frame b) :
    W'.Admits frame b := by
  obtain ⟨layout, found, included⟩ := admits
  obtain ⟨wider, foundWider, kept⟩ := grows.scopes b layout found
  exact ⟨wider, foundWider, fun name kind known => kept name kind (included name kind known)⟩

theorem World.Grows.callableOk (grows : W.Grows W') {callable : Callable}
    (ok : W.CallableOk callable) :
    W'.CallableOk callable := by
  cases callable with
  | closure params code scope =>
      obtain ⟨frame, hosts, params_eq, body, admits⟩ := ok
      exact ⟨frame, hosts, params_eq, body, grows.admits admits⟩
  | native n => exact ok
  | primitive p => exact ok

theorem World.Grows.transferOk (grows : W.Grows W') {transfer : Transfer}
    (ok : W.TransferOk transfer) :
    W'.TransferOk transfer := by
  obtain ⟨target, carried, handles, hasTarget, hasPayload⟩ := ok
  exact ⟨target, carried, handles, grows.has hasTarget, grows.has hasPayload⟩

theorem World.Grows.fits (grows : W.Grows W') {items : Array Value} {role : Role}
    (fits : W.Fits items role) :
    W'.Fits items role := by
  cases role with
  | lisp => exact fun item member => grows.datum (fits item member)
  | arguments count =>
      exact ⟨fits.1, fun i item positive found => grows.datum (fits.2 i item positive found)⟩
  | collector manyValues =>
      obtain ⟨rest, items_eq, datum⟩ := fits
      exact ⟨rest, items_eq, fun item member => grows.datum (datum item member)⟩
  | token held owner name => trivial
  | other => trivial

theorem World.Grows.cellsOk (grows : W.Grows W') {cells : Array Cell} (ok : W.CellsOk cells) :
    W'.CellsOk cells :=
  fun cell member => ⟨grows.datum (ok cell member).1, grows.datum (ok cell member).2⟩

theorem World.Grows.bundlesOk (grows : W.Grows W') {bundles : Array (List Value)}
    (ok : W.BundlesOk bundles) :
    W'.BundlesOk bundles :=
  fun bundle member value inside => grows.datum (ok bundle member value inside)

theorem World.Grows.vectorsOk (grows : W.Grows W') {roles : List Role}
    {vectors : Array (Array Value)} (ok : W.VectorsOk roles vectors) :
    W'.VectorsOk roles vectors :=
  fun a role found => grows.fits (ok a role found)

theorem World.Grows.transfersOk (grows : W.Grows W') {transfers : Array Transfer}
    (ok : W.TransfersOk transfers) :
    W'.TransfersOk transfers :=
  fun transfer member => grows.transferOk (ok transfer member)

theorem World.Grows.functionsOk (grows : W.Grows W') {owed : Address → Prop}
    {functions : Array FunctionObject} (ok : W.FunctionsOk owed functions) :
    W'.FunctionsOk owed functions :=
  ⟨ok.natives, fun a bound entry member => grows.datum (ok.properties a bound entry member),
    fun a bound inside ready => grows.callableOk (ok.callables a bound inside ready)⟩

theorem World.Grows.symbolsOk (grows : W.Grows W') {table : SymbolTable}
    (ok : W.SymbolsOk table) :
    W'.SymbolsOk table := by
  refine ⟨fun symbol member => ?_, ok.nil, ok.packages, ok.named, ok.nilName, ok.entries⟩
  have known := ok.symbols symbol member
  exact ⟨fun value held => grows.datum (known.value value held),
    fun function held => grows.datum (known.function function held), grows.datum known.plist⟩

theorem World.Grows.scopesOk (grows : W.Grows W') {layouts : List Layout} {scopes : Array Scope}
    (ok : W.ScopesOk layouts scopes) :
    W'.ScopesOk layouts scopes := by
  intro b layout found
  have known := ok b layout found
  refine ⟨fun name kind listed => ?_, known.acceptor, fun name held value listed token bound =>
    grows.isVector (known.token name held value listed token bound),
    fun name value bound unlisted free => grows.has (known.hidden name value bound unlisted free)⟩
  rcases known.found name kind listed with ⟨value, bound, has⟩ | outside
  · exact .inl ⟨value, bound, grows.has has⟩
  · exact .inr outside

end Growth

section Access

variable {W : World} {owed : Address → Prop} {image : Image}

theorem getD_of_getElem? {items : Array α} {i : Nat} {item fallback : α}
    (found : items[i]? = some item) :
    items.getD i fallback = item := by
  rw [Array.getD_eq_getD_getElem?, found, Option.getD_some]

theorem getD_mem_or_default (items : Array α) (i : Nat) (fallback : α) :
    items.getD i fallback ∈ items ∨ items.getD i fallback = fallback := by
  rw [Array.getD_eq_getD_getElem?]
  cases found : items[i]? with
  | none => exact .inr rfl
  | some item => exact .inl (Array.mem_of_getElem? found)

theorem World.DescribesBut.cell_datum (describes : W.DescribesBut owed image) (a : Nat) :
    W.Datum (image.heap.cell a).car ∧ W.Datum (image.heap.cell a).cdr := by
  rcases getD_mem_or_default image.heap.cells a default with member | missing
  · exact describes.cells _ member
  · rw [Heap.cell, missing]
    exact ⟨trivial, trivial⟩

theorem World.DescribesBut.bundle_datum (describes : W.DescribesBut owed image) (a : Nat) :
    ∀ value ∈ image.heap.bundle a, W.Datum value := by
  rcases getD_mem_or_default image.heap.bundles a [] with member | missing
  · exact describes.bundles _ member
  · rw [Heap.bundle, missing]
    simp

theorem World.DescribesBut.vector_fits (describes : W.DescribesBut owed image) {a : Nat}
    {role : Role} (found : W.vectors[a]? = some role) :
    W.Fits (image.heap.vector a) role :=
  describes.vectors a role found

theorem World.DescribesBut.transfer_ok (describes : W.DescribesBut owed image) {a : Nat}
    (bound : a < W.transfers) :
    W.TransferOk (image.heap.transfer a) := by
  rw [describes.transferCount] at bound
  rw [Heap.transfer, getD_of_getElem? (Array.getElem?_eq_getElem bound)]
  exact describes.transfers _ (Array.getElem_mem bound)

theorem World.DescribesBut.symbol_ok (describes : W.DescribesBut owed image) (id : SymbolId) :
    W.SymbolOk (image.symbols.symbol id) := by
  rcases getD_mem_or_default image.symbols.symbols id.index default with member | missing
  · exact describes.symbols.symbols _ member
  · rw [SymbolTable.symbol, missing]
    exact ⟨by rintro _ ⟨⟩, by rintro _ ⟨⟩, trivial⟩

/-- The values of a result. -/
theorem World.DescribesBut.valuesOf_datum (describes : W.DescribesBut owed image) {value : Value}
    (many : W.Has .many value) :
    ∀ item ∈ image.valuesOf value, W.Datum item := by
  rcases many with datum | ⟨address, rfl⟩
  · have single : image.valuesOf value = [value] := by
      cases value <;> first | rfl | exact datum.elim
    rw [single]
    simpa using datum
  · exact describes.bundle_datum address

end Access

end LispScript.Discipline
