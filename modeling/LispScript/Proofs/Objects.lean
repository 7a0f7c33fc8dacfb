import LispScript.Proofs.Names

/-!
Objects other than scopes: each operation that adds or changes one leads to a state that is described
again.
-/

namespace LispScript.Discipline

open Script

variable {W : World} {image : Image} {owed : Address → Prop}

section Arrays

theorem mem_modify {items : Array α} {i : Nat} {f : α → α} {item : α}
    (member : item ∈ items.modify i f) :
    item ∈ items ∨ ∃ old ∈ items, item = f old := by
  obtain ⟨j, found⟩ := Array.mem_iff_getElem?.mp member
  rw [Array.getElem?_modify] at found
  by_cases same : i = j
  · rw [if_pos same, Option.map_eq_some_iff] at found
    obtain ⟨old, foundOld, rfl⟩ := found
    exact .inr ⟨old, Array.mem_of_getElem? foundOld, rfl⟩
  · rw [if_neg same] at found
    exact .inl (Array.mem_of_getElem? found)

end Arrays

section Cells

theorem World.DescribesBut.allocCell (describes : W.DescribesBut owed image) {car cdr : Value}
    (datumCar : W.Datum car) (datumCdr : W.Datum cdr) :
    W.DescribesBut owed { image with heap := (image.heap.allocCell car cdr).2 } := by
  refine { describes with cells := fun cell member => ?_ }
  rcases Array.mem_push.mp member with old | rfl
  · exact describes.cells cell old
  · exact ⟨datumCar, datumCdr⟩

theorem World.DescribesBut.setCar (describes : W.DescribesBut owed image) (address : Address)
    {value : Value} (datum : W.Datum value) :
    W.DescribesBut owed { image with heap := image.heap.setCar address value } := by
  refine { describes with cells := fun cell member => ?_ }
  simp only [Heap.setCar] at member
  rcases mem_modify member with old | ⟨before, old, rfl⟩
  · exact describes.cells cell old
  · exact ⟨datum, (describes.cells before old).2⟩

theorem World.DescribesBut.setCdr (describes : W.DescribesBut owed image) (address : Address)
    {value : Value} (datum : W.Datum value) :
    W.DescribesBut owed { image with heap := image.heap.setCdr address value } := by
  refine { describes with cells := fun cell member => ?_ }
  simp only [Heap.setCdr] at member
  rcases mem_modify member with old | ⟨before, old, rfl⟩
  · exact describes.cells cell old
  · exact ⟨(describes.cells before old).1, datum⟩

/-- Making a list adds cells and nothing else. -/
theorem World.DescribesBut.allocListWithTail (describes : W.DescribesBut owed image)
    {items : List Value} {tail : Value} (datum : ∀ item ∈ items, W.Datum item)
    (datumTail : W.Datum tail) :
    W.Datum (image.heap.allocListWithTail items tail).1 ∧
      W.DescribesBut owed { image with heap := (image.heap.allocListWithTail items tail).2 } ∧
      (image.heap.allocListWithTail items tail).2.scopes = image.heap.scopes ∧
      (image.heap.allocListWithTail items tail).2.transfers = image.heap.transfers := by
  induction items with
  | nil => exact ⟨datumTail, describes, rfl, rfl⟩
  | cons item rest ih =>
      obtain ⟨datumRest, describesRest, scopes, transfers⟩ :=
        ih fun item member => datum item (List.mem_cons_of_mem _ member)
      exact ⟨trivial, describesRest.allocCell (datum item List.mem_cons_self) datumRest, scopes,
        transfers⟩

end Cells

section Vectors

/-- The world with one more vector. -/
def World.addVector (W : World) (role : Role) : World := { W with vectors := W.vectors ++ [role] }

theorem World.extends_addVector (W : World) (role : Role) : W.Extends (W.addVector role) :=
  ⟨List.prefix_refl _, List.prefix_append _ _, Nat.le_refl _, Nat.le_refl _⟩

theorem World.DescribesBut.addVector_self (describes : W.DescribesBut owed image) (role : Role) :
    (W.addVector role).IsVector role (.vector image.heap.vectors.size) :=
  ⟨_, rfl, by simp [World.addVector, ← describes.vectorCount]⟩

theorem World.DescribesBut.allocVector (describes : W.DescribesBut owed image)
    {items : Array Value} {role : Role} (fits : W.Fits items role) :
    (W.addVector role).DescribesBut owed
      { image with heap := (image.heap.allocVector items).2 } := by
  have grows := (W.extends_addVector role).grows
  refine ⟨describes.scopeCount, ?_, describes.functionCount, describes.transferCount,
    grows.cellsOk describes.cells, grows.bundlesOk describes.bundles, ?_,
    grows.functionsOk describes.functions, grows.transfersOk describes.transfers,
    grows.scopesOk describes.scopes, grows.symbolsOk describes.symbols⟩
  · simp [World.addVector, Heap.allocVector, describes.vectorCount]
  · intro a held found
    simp only [Heap.allocVector, getD_push, ← describes.vectorCount]
    by_cases new : a = W.vectors.length
    · subst new
      simp only [World.addVector, List.getElem?_concat_length, Option.some.injEq] at found
      subst found
      rw [if_pos rfl]
      exact grows.fits fits
    · have bound : a < W.vectors.length := by
        have := (List.getElem?_eq_some_iff.mp found).1
        simp only [World.addVector, List.length_append, List.length_singleton] at this
        omega
      simp only [World.addVector] at found
      rw [List.getElem?_append_left bound] at found
      rw [if_neg new]
      exact grows.fits (describes.vectors a held found)

end Vectors

section Functions

/-- The world with one more function. -/
def World.addFunction (W : World) : World := { W with functions := W.functions + 1 }

theorem World.extends_addFunction (W : World) : W.Extends W.addFunction :=
  ⟨List.prefix_refl _, List.prefix_refl _, Nat.le_succ _, Nat.le_refl _⟩

theorem nativeAddress_lt (n : Native) : Image.nativeAddress n < firstFunction := by
  cases n with
  | routine r => cases r <;> decide
  | primitive p => cases p <;> decide

theorem World.FunctionsOk.natives_lt {functions : Array FunctionObject}
    (ok : W.FunctionsOk owed functions) (n : Native) :
    Image.nativeAddress n < functions.size := by
  by_contra missing
  have default_eq : functions.getD (Image.nativeAddress n) default = default := by
    rw [Array.getD_eq_getD_getElem?, Array.getElem?_eq_none (Nat.le_of_not_lt missing),
      Option.getD_none]
  have native := ok.natives n
  rw [default_eq] at native
  contradiction

theorem World.DescribesBut.firstFunction_le (describes : W.DescribesBut owed image) :
    firstFunction ≤ image.heap.functions.size := by
  have last := describes.functions.natives_lt (.primitive .error)
  have first_eq : firstFunction = Image.nativeAddress (.primitive .error) + 1 := by decide
  rw [first_eq]
  exact last

theorem World.DescribesBut.addFunction_self (describes : W.DescribesBut owed image) :
    W.addFunction.Datum (.function image.heap.functions.size) := by
  refine ⟨describes.firstFunction_le, ?_⟩
  rw [← describes.functionCount]
  exact Nat.lt_succ_self _

/-- A function that may be owed its readiness. -/
theorem World.DescribesBut.allocFunction (describes : W.DescribesBut owed image)
    {callable : Callable} {owed' : Address → Prop} (more : ∀ a, owed a → owed' a)
    (ok : ¬ owed' image.heap.functions.size → W.addFunction.CallableOk callable) :
    W.addFunction.DescribesBut owed'
      { image with heap := (image.heap.allocFunction callable).2 } := by
  have grows := W.extends_addFunction.grows
  have known := grows.functionsOk describes.functions
  have last := describes.firstFunction_le
  refine ⟨describes.scopeCount, describes.vectorCount, ?_, describes.transferCount,
    grows.cellsOk describes.cells, grows.bundlesOk describes.bundles,
    grows.vectorsOk describes.vectors, ⟨fun n => ?_, fun a bound entry member => ?_,
      fun a bound inside ready => ?_⟩, grows.transfersOk describes.transfers,
    grows.scopesOk describes.scopes, grows.symbolsOk describes.symbols⟩
  · simp [World.addFunction, Heap.allocFunction, describes.functionCount]
  · have old := Nat.ne_of_lt (Nat.lt_of_lt_of_le (nativeAddress_lt n) last)
    simp only [Heap.allocFunction, getD_push, if_neg old]
    exact known.natives n
  · simp only [Heap.allocFunction, getD_push] at member
    split at member
    · simp at member
    · exact known.properties a bound entry member
  · simp only [Heap.allocFunction, getD_push, Array.size_push] at inside ⊢
    by_cases new : a = image.heap.functions.size
    · rw [if_pos new]
      exact ok (new ▸ ready)
    · rw [if_neg new]
      exact known.callables a bound (Nat.lt_of_le_of_ne (Nat.le_of_lt_succ inside) new)
        fun still => ready (more a still)

/-- Functions that were owed their readiness and got it. -/
theorem World.DescribesBut.settleFunctions (describes : W.DescribesBut owed image)
    (ready : ∀ a, owed a → firstFunction ≤ a → a < image.heap.functions.size →
      W.CallableOk (image.heap.function a).callable) :
    W.Describes image := by
  refine { describes with functions := ⟨describes.functions.natives,
    describes.functions.properties, fun a bound inside _ => ?_⟩ }
  by_cases still : owed a
  · exact ready a still bound inside
  · exact describes.functions.callables a bound inside still

theorem associate_datum {properties : List (String × Value)} {property : String} {value : Value}
    (datum : W.Datum value) (known : ∀ entry ∈ properties, W.Datum entry.2) :
    ∀ entry ∈ Heap.associate property value properties, W.Datum entry.2 := by
  induction properties with
  | nil => simpa [Heap.associate] using datum
  | cons head rest ih =>
      obtain ⟨key, old⟩ := head
      have knownRest := fun entry member => known entry (List.mem_cons_of_mem _ member)
      intro entry member
      rw [Heap.associate] at member
      split at member
      · rcases List.mem_cons.mp member with rfl | inside
        · exact datum
        · exact knownRest entry inside
      · rcases List.mem_cons.mp member with rfl | inside
        · exact known _ List.mem_cons_self
        · exact ih knownRest entry inside

theorem setProperty_callable (heap : Heap) (address a : Address) (property : String)
    (value : Value) :
    ((heap.setProperty address property value).function a).callable =
      (heap.function a).callable := by
  by_cases bound : address < heap.functions.size
  · simp only [Heap.setProperty, Heap.function]
    rw [getD_modify _ _ _ _ bound]
    by_cases same : a = address
    · rw [if_pos same, same]
    · rw [if_neg same]
  · have unchanged : heap.functions.modify address (fun function => { function with
        properties := Heap.associate property value function.properties }) = heap.functions := by
      apply Array.ext_getElem?
      intro i
      rw [Array.getElem?_modify]
      split
      · rename_i same
        rw [← same, Array.getElem?_eq_none (Nat.le_of_not_lt bound), Option.map_none]
      · rfl
    simp only [Heap.setProperty, Heap.function, unchanged]

theorem World.DescribesBut.setProperty (describes : W.DescribesBut owed image)
    {address : Address} {property : String} {value : Value}
    (inside : address < image.heap.functions.size) (datum : W.Datum value) :
    W.DescribesBut owed { image with heap := image.heap.setProperty address property value } := by
  have callable : ∀ a, ((image.heap.setProperty address property value).function a).callable =
      (image.heap.function a).callable :=
    fun a => setProperty_callable image.heap address a property value
  refine { describes with
    functionCount := ?_
    functions := ⟨fun n => ?_, fun a bound entry member => ?_, fun a bound within ready => ?_⟩ }
  · simp [Heap.setProperty, describes.functionCount]
  · exact (callable _).trans (describes.functions.natives n)
  · change entry ∈ ((image.heap.functions.modify address _).getD a default).properties at member
    rw [getD_modify _ _ _ _ inside] at member
    by_cases same : a = address
    · subst same
      rw [if_pos rfl] at member
      exact associate_datum datum (describes.functions.properties a bound) entry member
    · rw [if_neg same] at member
      exact describes.functions.properties a bound entry member
  · have size_eq : (image.heap.setProperty address property value).functions.size =
        image.heap.functions.size := by simp [Heap.setProperty]
    change W.CallableOk ((image.heap.setProperty address property value).function a).callable
    rw [callable]
    exact describes.functions.callables a bound (size_eq ▸ within) ready

theorem World.DescribesBut.property_datum (describes : W.DescribesBut owed image) {a : Address}
    (language : firstFunction ≤ a) (property : String) :
    W.Datum (image.heap.property a property) ∨ image.heap.property a property = .undefined := by
  rw [Heap.property]
  cases found : (image.heap.function a).properties.lookup property with
  | none => exact .inr rfl
  | some value =>
      obtain ⟨before, after, entries, -⟩ := List.lookup_eq_some_iff.mp found
      refine .inl (describes.functions.properties a language (property, value) ?_)
      change _ ∈ (image.heap.function a).properties
      rw [entries]
      exact List.mem_append_right _ List.mem_cons_self

end Functions

section Signals

theorem World.DescribesBut.allocBundle (describes : W.DescribesBut owed image)
    {values : List Value} (datum : ∀ value ∈ values, W.Datum value) :
    W.DescribesBut owed { image with heap := (image.heap.allocBundle values).2 } := by
  refine { describes with bundles := fun bundle member => ?_ }
  rcases Array.mem_push.mp member with old | rfl
  · exact describes.bundles bundle old
  · exact datum

/-- The world with one more transfer. -/
def World.addTransfer (W : World) : World := { W with transfers := W.transfers + 1 }

theorem World.extends_addTransfer (W : World) : W.Extends W.addTransfer :=
  ⟨List.prefix_refl _, List.prefix_refl _, Nat.le_refl _, Nat.le_succ _⟩

theorem World.DescribesBut.allocTransfer (describes : W.DescribesBut owed image)
    {transfer : Transfer} (ok : W.TransferOk transfer) :
    W.addTransfer.DescribesBut owed
      { image with heap := (image.heap.allocTransfer transfer).2 } := by
  have grows := W.extends_addTransfer.grows
  refine ⟨describes.scopeCount, describes.vectorCount, describes.functionCount, ?_,
    grows.cellsOk describes.cells, grows.bundlesOk describes.bundles,
    grows.vectorsOk describes.vectors, grows.functionsOk describes.functions,
    fun held member => ?_, grows.scopesOk describes.scopes,
    grows.symbolsOk describes.symbols⟩
  · simp [World.addTransfer, Heap.allocTransfer, describes.transferCount]
  · rcases Array.mem_push.mp member with old | rfl
    · exact grows.transfersOk describes.transfers held old
    · exact grows.transferOk ok

theorem allocTransfer_transfer (heap : Heap) (transfer : Transfer) (a : Address) :
    (heap.allocTransfer transfer).2.transfer a =
      if a = heap.transfers.size then transfer else heap.transfer a := by
  simp only [Heap.allocTransfer, Heap.transfer, getD_push]

theorem Follows.allocTransfer (describes : W.DescribesBut owed image) (transfer : Transfer) :
    Follows W image W.addTransfer
      { image with heap := (image.heap.allocTransfer transfer).2 } := by
  refine Follows.step W.extends_addTransfer rfl fun a bound => ?_
  rw [describes.transferCount] at bound
  rw [allocTransfer_transfer, if_neg (Nat.ne_of_lt bound)]

end Signals

section Symbols

variable {table : SymbolTable}

theorem World.SymbolsOk.updateSymbol (ok : W.SymbolsOk table) (id : SymbolId) {f : Symbol → Symbol}
    (kept : ∀ symbol, W.SymbolOk symbol → W.SymbolOk (f symbol))
    (home : ∀ symbol, (f symbol).home = symbol.home)
    (name : ∀ symbol, (f symbol).name = symbol.name) :
    W.SymbolsOk (table.updateSymbol id f) := by
  refine ⟨fun symbol member => ?_, ?_, ok.packages, ok.named, ?_, ok.entries⟩
  · rcases mem_modify member with old | ⟨before, old, rfl⟩
    · exact ok.symbols symbol old
    · exact kept before (ok.symbols before old)
  · obtain ⟨first, found, isSome⟩ := ok.nil
    simp only [SymbolTable.updateSymbol, Array.getElem?_modify]
    by_cases same : id.index = 0
    · rw [if_pos same, found]
      exact ⟨f first, rfl, by rwa [home]⟩
    · rw [if_neg same]
      exact ⟨first, found, isSome⟩
  · obtain ⟨first, found, -⟩ := ok.nil
    have nilName := ok.nilName
    simp only [SymbolTable.symbolName, SymbolTable.symbol, Array.getD_eq_getD_getElem?] at nilName ⊢
    simp only [SymbolTable.updateSymbol, Array.getElem?_modify]
    change table.symbols[SymbolId.nil.index]? = _ at found
    rw [found] at nilName ⊢
    split
    · exact (name first).trans nilName
    · exact nilName

theorem World.SymbolsOk.setValue (ok : W.SymbolsOk table) (id : SymbolId) {slot : Option Value}
    (datum : ∀ value ∈ slot, W.Datum value) :
    W.SymbolsOk (table.setValue id slot) :=
  ok.updateSymbol id (fun _ known => ⟨datum, known.function, known.plist⟩) (fun _ => rfl) fun _ => rfl

theorem World.SymbolsOk.setFunction (ok : W.SymbolsOk table) (id : SymbolId) {slot : Option Value}
    (datum : ∀ value ∈ slot, W.Datum value) :
    W.SymbolsOk (table.setFunction id slot) :=
  ok.updateSymbol id (fun _ known => ⟨known.value, datum, known.plist⟩) (fun _ => rfl) fun _ => rfl

theorem World.SymbolsOk.pushSymbol (ok : W.SymbolsOk table) {symbol : Symbol}
    (symbolOk : W.SymbolOk symbol) :
    W.SymbolsOk { table with symbols := table.symbols.push symbol } := by
  refine ⟨fun other member => ?_, ?_, ok.packages, ok.named, ?_, ok.entries⟩
  · rcases Array.mem_push.mp member with old | rfl
    · exact ok.symbols other old
    · exact symbolOk
  · obtain ⟨first, found, isSome⟩ := ok.nil
    obtain ⟨bound, -⟩ := Array.getElem?_eq_some_iff.mp found
    exact ⟨first, by rw [Array.getElem?_push, if_neg (Nat.ne_of_lt bound), found], isSome⟩
  · obtain ⟨first, found, -⟩ := ok.nil
    obtain ⟨bound, -⟩ := Array.getElem?_eq_some_iff.mp found
    have nilName := ok.nilName
    rw [SymbolTable.symbolName, SymbolTable.symbol] at nilName ⊢
    rwa [getD_push, if_neg (show SymbolId.nil.index ≠ _ from Nat.ne_of_lt bound)]

section Entries

variable {package : Package} {name : String} {id : SymbolId}

theorem knowsNil_empty {package : Package} (internals : package.internals = {})
    (externals : package.externals = {}) : KnowsNil package := by
  rintro name (internal | external)
  · cases NameTable.find?_empty.symm.trans (internals ▸ internal)
  · cases NameTable.find?_empty.symm.trans (externals ▸ external)

theorem KnowsNil.insertExternal (knows : KnowsNil package)
    (named : id = SymbolId.nil → name = "NIL") :
    KnowsNil { package with externals := package.externals.insert name id } := by
  intro other found
  by_cases same : other = name
  · subst same
    rcases found with internal | external
    · exact knows other (.inl internal)
    · rw [NameTable.find?_insert_self] at external
      exact named (Option.some.inj external)
  · rw [NameTable.find?_insert_of_ne same] at found
    exact knows other found

theorem KnowsNil.insertInternal (knows : KnowsNil package)
    (named : id = SymbolId.nil → name = "NIL") :
    KnowsNil { package with internals := package.internals.insert name id } := by
  intro other found
  by_cases same : other = name
  · subst same
    rcases found with internal | external
    · rw [NameTable.find?_insert_self] at internal
      exact named (Option.some.inj internal)
    · exact knows other (.inr external)
  · rw [NameTable.find?_insert_of_ne same] at found
    exact knows other found

theorem KnowsNil.erase (knows : KnowsNil package) (name : String) :
    KnowsNil { package with internals := package.internals.erase name } := by
  intro other found
  by_cases same : other = name
  · subst same
    rw [NameTable.find?_erase_self] at found
    exact knows other (.inr (found.resolve_left (by simp)))
  · rw [NameTable.find?_erase_of_ne same] at found
    exact knows other found

end Entries

theorem World.SymbolsOk.updatePackage (ok : W.SymbolsOk table) (id : PackageId)
    {f : Package → Package} (name : ∀ package, (f package).name = package.name)
    (knows : ∀ package, KnowsNil package → KnowsNil (f package)) :
    W.SymbolsOk (table.updatePackage id f) := by
  refine ⟨ok.symbols, ok.nil, ?_, ok.named, ok.nilName, fun package member => ?_⟩
  swap
  · rcases mem_modify member with old | ⟨before, old, rfl⟩
    · exact ok.entries package old
    · exact knows before (ok.entries before old)
  rw [← ok.packages]
  simp only [SymbolTable.updatePackage]
  apply List.ext_getElem?
  intro i
  simp only [List.getElem?_map, Array.getElem?_toList, Array.getElem?_modify]
  split
  · cases table.packages[i]? <;> simp [name]
  · rfl

/-- A new symbol is not `NIL`. -/
theorem World.SymbolsOk.newSymbol (ok : W.SymbolsOk table) :
    W.Has .symbol (.symbol ⟨table.symbols.size⟩) := by
  obtain ⟨first, found, -⟩ := ok.nil
  obtain ⟨bound, -⟩ := Array.getElem?_eq_some_iff.mp found
  refine ⟨fun same => ?_, rfl⟩
  have zero : table.symbols.size = 0 := congrArg SymbolId.index same
  omega

theorem World.SymbolsOk.makeSymbol (ok : W.SymbolsOk table) (name : String) :
    W.SymbolsOk (table.makeSymbol name).2 :=
  ok.pushSymbol ⟨nofun, nofun, trivial⟩

theorem World.SymbolsOk.gensym (ok : W.SymbolsOk table) (stem : String) :
    W.SymbolsOk (table.gensym stem).2 ∧ W.Has .symbol (.symbol (table.gensym stem).1) := by
  have counted : W.SymbolsOk { table with generated := table.generated + 1 } :=
    ⟨ok.symbols, ok.nil, ok.packages, ok.named, ok.nilName, ok.entries⟩
  exact ⟨counted.makeSymbol _, counted.newSymbol⟩

theorem World.SymbolsOk.internWithStatus (ok : W.SymbolsOk table) (name : String)
    (package : PackageId) :
    W.SymbolsOk (table.internWithStatus name package).2 := by
  unfold SymbolTable.internWithStatus
  split
  · exact ok
  · split
    · refine World.SymbolsOk.updatePackage ?_ _ (fun _ => rfl) fun _ knows => ?_
      · refine ok.pushSymbol ⟨fun value held => ?_, nofun, trivial⟩
        obtain rfl := Option.some.inj held
        exact ok.newSymbol.1
      · exact knows.insertExternal fun same => absurd same ok.newSymbol.1
    · refine World.SymbolsOk.updatePackage ?_ _ (fun _ => rfl) fun _ knows => ?_
      · exact ok.pushSymbol ⟨nofun, nofun, trivial⟩
      · exact knows.insertInternal fun same => absurd same ok.newSymbol.1

theorem World.SymbolsOk.intern (ok : W.SymbolsOk table) (name : String) (package : PackageId) :
    W.SymbolsOk (table.intern name package).2 :=
  ok.internWithStatus name package

/-- A name that is not that of `NIL` means another symbol. -/
theorem World.SymbolsOk.intern_ne_nil (ok : W.SymbolsOk table) {name : String} (other : name ≠ "NIL")
    (package : PackageId) : (table.intern name package).1 ≠ SymbolId.nil := by
  have knows (p : PackageId) : KnowsNil (table.package p) := by
    rcases getD_mem_or_default table.packages p.index default with member | missing
    · exact ok.entries _ member
    · rw [SymbolTable.package, missing]
      exact knowsNil_empty rfl rfl
  have found_ne : ∀ entry, table.findSymbol? name package = some entry → entry.1 ≠ SymbolId.nil := by
    rintro ⟨id, visibility⟩ found rfl
    rw [SymbolTable.findSymbol?] at found
    cases internal : (table.package package).internals.find? name with
    | some held =>
        simp only [internal, Option.some.injEq, Prod.mk.injEq] at found
        exact other (knows package name (.inl (found.1 ▸ internal)))
    | none =>
        cases external : (table.package package).externals.find? name with
        | some held =>
            simp only [internal, external, Option.some.injEq, Prod.mk.injEq] at found
            exact other (knows package name (.inr (found.1 ▸ external)))
        | none =>
            simp only [internal, external, Option.map_eq_some_iff, Prod.mk.injEq] at found
            obtain ⟨held, inherited, rfl, -⟩ := found
            obtain ⟨used, -, exported⟩ := List.exists_of_findSome?_eq_some inherited
            exact other (knows used name (.inr exported))
  unfold SymbolTable.intern SymbolTable.internWithStatus
  cases found : table.findSymbol? name package with
  | some entry => exact found_ne entry found
  | none =>
      dsimp only
      split <;> exact ok.newSymbol.1

theorem World.SymbolsOk.promote (ok : W.SymbolsOk table) (id : SymbolId) (package : PackageId) :
    W.SymbolsOk (table.promote id package) :=
  ok.updatePackage _ (fun _ => rfl) fun _ knows =>
    (knows.erase _).insertExternal fun same => same ▸ ok.nilName

theorem World.SymbolsOk.internStandard (ok : W.SymbolsOk table) (name : String) :
    W.SymbolsOk (table.internStandard name).2 :=
  (ok.intern name _).promote _ _

end Symbols

end LispScript.Discipline
