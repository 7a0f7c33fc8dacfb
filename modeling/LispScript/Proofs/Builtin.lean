import LispScript.Proofs.Outcome

/-!
The built-in functions and the support routines keep to the language: given its values, they give
its values.
-/

namespace LispScript.Discipline

open Script Machine

/-- A run that gives a value of a kind. -/
abbrev Gives (W : World) (image : Image) (run : Run Value) (kind : Kind) : Prop :=
  Safe W image run fun W' => W'.Has kind

/-- Values of the language. -/
def World.Data (W : World) (values : List Value) : Prop := ∀ value ∈ values, W.Datum value

variable {W W' : World} {image later : Image} {args items values : List Value} {value : Value}
  {good : World → α → Prop}

section Data

theorem World.data_nil : W.Data [] := nofun

theorem World.data_cons : W.Data (value :: values) ↔ W.Datum value ∧ W.Data values :=
  List.forall_mem_cons

theorem World.Data.append (first : W.Data values) (second : W.Data items) :
    W.Data (values ++ items) := by
  intro item member
  rcases List.mem_append.mp member with inside | inside
  · exact first item inside
  · exact second item inside

theorem World.Data.tail (data : W.Data args) : W.Data args.tail :=
  fun item member => data item (List.mem_of_mem_tail member)

theorem World.Data.drop (data : W.Data args) (n : Nat) : W.Data (args.drop n) :=
  fun item member => data item (List.mem_of_mem_drop member)

theorem World.Data.dropLast (data : W.Data args) : W.Data args.dropLast :=
  fun item member => data item (List.dropLast_subset args member)

theorem World.Data.getLast (data : W.Data args) (last : args.getLast? = some value) :
    W.Datum value :=
  data value (List.mem_of_getLast? last)

theorem World.Data.follows (data : W.Data args) (follows : Follows W image W' later) :
    W'.Data args :=
  fun item member => follows.leads.grows.datum (data item member)

theorem World.Data.actual (data : W.Data args) (i : Nat) : W.Datum (actual args i) := by
  rw [Machine.actual]
  cases found : args[i]? with
  | none => trivial
  | some item => exact data item (List.mem_of_getElem? found)

theorem Follows.datum (follows : Follows W image W' later) (datum : W.Datum value) :
    W'.Datum value :=
  follows.leads.grows.datum datum

end Data

section Reading

theorem Safe.ofHeap {f : Heap → Run α} (safe : Safe W image (f image.heap) good) :
    Safe W image (Run.heap >>= f) good :=
  safe

theorem Safe.ofSymbols {f : SymbolTable → Run α} (safe : Safe W image (f image.symbols) good) :
    Safe W image (Run.symbols >>= f) good :=
  safe

theorem Safe.described {f : String → Run α} {value : Value}
    (safe : Safe W image (f (image.print value)) good) :
    Safe W image (Run.describe value >>= f) good :=
  safe

/-- A reader that fails or gives what it is asked for, and changes nothing. -/
theorem Safe.numberOf (describes : W.Describes image) (value : Value) :
    Safe W image (numberOf value) fun _ _ => True := by
  cases value with
  | number n => exact Safe.gives describes trivial
  | _ => exact Safe.typeError describes _ _

theorem Safe.symbolOf (describes : W.Describes image) (value : Value) :
    Safe W image (symbolOf value) fun _ _ => True := by
  unfold Machine.symbolOf
  split
  · exact Safe.gives describes trivial
  · exact Safe.typeError describes _ _

/-- The elements that a walk along a list gives. -/
theorem spineFrom_data (describes : W.Describes image) (limit : Nat) {seen : List Value}
    (dataSeen : W.Data seen) (datum : W.Datum value) :
    W.Data (image.heap.spineFrom limit seen value).1 ∧
      W.Datum (image.heap.spineFrom limit seen value).2 := by
  induction limit generalizing seen value with
  | zero =>
      rw [Heap.spineFrom]
      · exact ⟨fun item member => dataSeen item (List.mem_reverse.mp member), datum⟩
      · nofun
  | succ limit ih =>
      cases value with
      | cons address =>
          have cell := describes.cell_datum address
          exact ih (World.data_cons.mpr ⟨cell.1, dataSeen⟩) cell.2
      | _ => exact ⟨fun item member => dataSeen item (List.mem_reverse.mp member), datum⟩

/-- The elements of a list of data. -/
theorem listItems_data (describes : W.Describes image) (datum : W.Datum value)
    (found : image.heap.listItems? value = some items) :
    W.Data items := by
  have data := (spineFrom_data describes image.heap.cells.size World.data_nil datum).1
  rw [Heap.listItems?, Heap.splitDotted] at found
  split at found
  · rename_i split_eq
    obtain rfl := Option.some.inj found
    rwa [split_eq] at data
  · contradiction

theorem Safe.listItems (describes : W.Describes image) (datum : W.Datum value) :
    Safe W image (listItems value) fun W' items => W'.Data items := by
  unfold Machine.listItems
  refine Safe.ofHeap ?_
  cases found : image.heap.listItems? value with
  | none => exact Safe.typeError describes _ _
  | some items => exact Safe.gives describes (listItems_data describes datum found)

end Reading

section Making

theorem Safe.newString (describes : W.Describes image) (text : String) :
    Gives W image (Run.newString text) .datum :=
  Safe.done (Follows.stay (World.Extends.refl W) rfl rfl) { describes with } rfl trivial

theorem Safe.newListWithTail (describes : W.Describes image) (data : W.Data items)
    (datum : W.Datum value) :
    Gives W image (Run.onHeap (·.allocListWithTail items value)) .datum := by
  obtain ⟨list, described, scopes, transfers⟩ := describes.allocListWithTail data datum
  exact Safe.done (Follows.stay (World.Extends.refl W) scopes transfers) described rfl list

theorem Safe.newList (describes : W.Describes image) (data : W.Data items) :
    Gives W image (newList items) .datum := by
  have nil : W.Datum .nil := trivial
  exact Safe.newListWithTail describes data nil

/-- A vector in any role. -/
theorem Safe.newVectorAs (describes : W.Describes image) {items : Array Value} {role : Role}
    (fits : W.Fits items role) :
    Safe W image (Run.onHeap (·.allocVector items)) fun W' => W'.IsVector role :=
  Safe.done (Follows.stay (W.extends_addVector role) rfl rfl) (describes.allocVector fits) rfl
    (describes.addVector_self role)

theorem lisp_datum (isVector : W.IsVector .lisp value) : W.Datum value := by
  obtain ⟨address, rfl, found⟩ := isVector
  exact found

theorem Safe.newVector (describes : W.Describes image) (data : W.Data items) :
    Gives W image (newVector items) .datum := by
  have fits : W.Fits items.toArray .lisp := fun item member => data item (by simpa using member)
  exact (Safe.newVectorAs describes fits).mono fun _ _ => lisp_datum

theorem Safe.onSymbols (describes : W.Describes image) {f : SymbolTable → α × SymbolTable}
    (ok : W.SymbolsOk (f image.symbols).2) (held : good W (f image.symbols).1) :
    Safe W image (Run.onSymbols f) good :=
  Safe.done (Follows.stay (World.Extends.refl W) rfl rfl) { describes with symbols := ok } rfl held

theorem Safe.modifySymbols (describes : W.Describes image) {f : SymbolTable → SymbolTable}
    (ok : W.SymbolsOk (f image.symbols)) :
    Safe W image (Run.modifySymbols f) fun _ _ => True :=
  Safe.done (Follows.stay (World.Extends.refl W) rfl rfl) { describes with symbols := ok } rfl
    trivial

theorem Safe.modifyHeap (_ : W.Describes image) {f : Heap → Heap}
    (described : W.Describes { image with heap := f image.heap })
    (scopes : (f image.heap).scopes = image.heap.scopes)
    (transfers : (f image.heap).transfers = image.heap.transfers) :
    Safe W image (Run.modifyHeap f) fun _ _ => True :=
  Safe.done (Follows.stay (World.Extends.refl W) scopes transfers) described rfl trivial

/-- An interned symbol, as data. -/
theorem Safe.interned (describes : W.Describes image) (name : String) (package : PackageId) :
    Gives W image (Value.ofSymbol <$> Run.onSymbols (·.intern name package)) .symbol := by
  rw [map_eq_pure_bind]
  have interned : Safe W image (Run.onSymbols (·.intern name package)) fun _ _ => True :=
    Safe.onSymbols describes (describes.symbols.intern name package) trivial
  exact interned.bind fun W' later id _ described _ => Safe.gives described (W'.symbol_ofSymbol id)

/-- A new symbol, which is not `NIL`. -/
theorem Safe.ofNewSymbol {run : Run SymbolId}
    (made : Safe W image run fun W' id => W'.Has .symbol (.symbol id)) :
    Gives W image (Value.symbol <$> run) .symbol := by
  rw [map_eq_pure_bind]
  exact made.bind fun _ _ _ _ described held => Safe.gives described held

theorem Safe.madeSymbol (describes : W.Describes image) (name : String) :
    Gives W image (Value.symbol <$> Run.onSymbols (·.makeSymbol name)) .symbol :=
  Safe.ofNewSymbol
    (Safe.onSymbols describes (describes.symbols.makeSymbol name) describes.symbols.newSymbol)

theorem Safe.generated (describes : W.Describes image) (stem : String) :
    Gives W image (Value.symbol <$> Run.onSymbols (·.gensym stem)) .symbol := by
  obtain ⟨ok, made⟩ := describes.symbols.gensym stem
  exact Safe.ofNewSymbol (Safe.onSymbols describes ok made)

end Making

section Arithmetic

theorem Safe.accumulate (op : Float → Float → Float) (args : List Value)
    (describes : W.Describes image) (total : Float) :
    Gives W image (accumulate op total args) .datum := by
  induction args generalizing W image total with
  | nil => exact Safe.gives describes trivial
  | cons value rest ih =>
      exact (Safe.numberOf describes value).bind fun _ _ _ _ described _ => ih described _

theorem Safe.divideBy (args : List Value) (describes : W.Describes image) (total : Float) :
    Gives W image (divideBy total args) .datum := by
  induction args generalizing W image total with
  | nil => exact Safe.gives describes trivial
  | cons value rest ih =>
      refine (Safe.numberOf describes value).bind fun _ _ divisor _ described _ => ?_
      split
      · exact Safe.fail described trivial
      · exact ih described _

theorem Safe.subtract (describes : W.Describes image) (args : List Value) :
    Gives W image (subtract args) .datum := by
  refine (Safe.numberOf describes _).bind fun _ _ first _ described _ => ?_
  split
  · exact Safe.gives described trivial
  · exact Safe.accumulate _ _ described _

theorem Safe.divide (describes : W.Describes image) (args : List Value) :
    Gives W image (divide args) .datum := by
  refine (Safe.numberOf describes _).bind fun _ _ first _ described _ => ?_
  split
  · exact Safe.divideBy _ described _
  · exact Safe.divideBy _ described _

theorem Safe.floorMod (describes : W.Describes image) (args : List Value) :
    Gives W image (floorMod args) .datum := by
  refine (Safe.numberOf describes _).bind fun _ _ a _ described _ => ?_
  refine (Safe.numberOf described _).bind fun _ _ b _ described _ => ?_
  split
  · exact Safe.fail described trivial
  · exact Safe.gives described trivial

theorem Safe.chainFrom (related : Float → Float → Bool) (args : List Value)
    (describes : W.Describes image) (previous : Float) :
    Gives W image (chainFrom related previous args) .datum := by
  induction args generalizing W image previous with
  | nil => exact Safe.gives describes (W.datum_ofBool true)
  | cons value rest ih =>
      refine (Safe.numberOf describes value).bind fun _ _ current _ described _ => ?_
      split
      · exact ih described _
      · exact Safe.gives described trivial

theorem Safe.chain (related : Float → Float → Bool) (describes : W.Describes image)
    (args : List Value) :
    Gives W image (chain related args) .datum :=
  (Safe.numberOf describes _).bind fun _ _ _ _ described _ => Safe.chainFrom _ _ described _

end Arithmetic

section Lists

theorem Safe.carOf (describes : W.Describes image) (value : Value) :
    Gives W image (carOf value) .datum := by
  cases value with
  | nil => exact Safe.gives describes trivial
  | cons address => exact Safe.ofHeap (Safe.gives describes (describes.cell_datum address).1)
  | _ => exact Safe.typeError describes _ _

theorem Safe.cdrOf (describes : W.Describes image) (value : Value) :
    Gives W image (cdrOf value) .datum := by
  cases value with
  | nil => exact Safe.gives describes trivial
  | cons address => exact Safe.ofHeap (Safe.gives describes (describes.cell_datum address).2)
  | _ => exact Safe.typeError describes _ _

theorem Safe.replaceCar (describes : W.Describes image) (cell : Value) (datum : W.Datum value) :
    Gives W image (replaceCar cell value) .datum := by
  cases cell with
  | cons address =>
      exact (Safe.modifyHeap describes (describes.setCar address datum) rfl rfl).bind
        fun _ _ _ _ described _ => Safe.gives described trivial
  | _ => exact Safe.typeError describes _ _

theorem Safe.replaceCdr (describes : W.Describes image) (cell : Value) (datum : W.Datum value) :
    Gives W image (replaceCdr cell value) .datum := by
  cases cell with
  | cons address =>
      exact (Safe.modifyHeap describes (describes.setCdr address datum) rfl rfl).bind
        fun _ _ _ _ described _ => Safe.gives described trivial
  | _ => exact Safe.typeError describes _ _

theorem Safe.listStar (describes : W.Describes image) (data : W.Data args) :
    Gives W image (listStar args) .datum := by
  unfold Machine.listStar
  split
  · rename_i tail last
    exact Safe.newListWithTail describes data.dropLast (data.getLast last)
  · exact Safe.gives describes trivial

/-- Reads lists one after the other. -/
theorem Safe.listsOf (lists : List Value) (describes : W.Describes image)
    (data : W.Data lists) :
    Safe W image (lists.mapM Machine.listItems) fun W' read => ∀ items ∈ read, W'.Data items := by
  induction lists generalizing W image with
  | nil => exact Safe.gives describes nofun
  | cons list rest ih =>
      obtain ⟨datum, dataRest⟩ := World.data_cons.mp data
      rw [List.mapM_cons]
      refine (Safe.listItems describes datum).bind fun W₁ image₁ items follows described held => ?_
      refine (ih described (dataRest.follows follows)).bind fun W₂ image₂ more further described
        heldMore => ?_
      exact Safe.gives described (List.forall_mem_cons.mpr ⟨held.follows further, heldMore⟩)

theorem Safe.appendLists (describes : W.Describes image) (data : W.Data args) :
    Gives W image (appendLists args) .datum := by
  unfold Machine.appendLists
  split
  · rename_i tail last
    refine (Safe.listsOf _ describes data.dropLast).bind fun W' later lists follows described
      held => ?_
    have flat : W'.Data lists.flatten := fun item member => by
      obtain ⟨items, inside, memberItems⟩ := List.mem_flatten.mp member
      exact held items inside item memberItems
    exact Safe.newListWithTail described flat (follows.datum (data.getLast last))
  · exact Safe.gives describes trivial

theorem Safe.lengthOf (describes : W.Describes image) (datum : W.Datum value) :
    Gives W image (lengthOf value) .datum := by
  unfold Machine.lengthOf
  split
  · exact Safe.ofHeap (Safe.gives describes trivial)
  · exact Safe.gives describes trivial
  · exact (Safe.listItems describes datum).bind fun _ _ _ _ described _ =>
      Safe.gives described trivial

theorem World.DescribesBut.vector_data {owed : Address → Prop}
    (describes : W.DescribesBut owed image) {address : Address}
    (datum : W.Datum (.vector address)) :
    W.Data (image.heap.vector address).toList :=
  fun item member => describes.vector_fits datum item (Array.mem_toList_iff.mp member)

theorem Safe.reverseOf (describes : W.Describes image) (datum : W.Datum value) :
    Gives W image (reverseOf value) .datum := by
  unfold Machine.reverseOf
  split
  · refine Safe.ofHeap (Safe.newVector describes fun item member => ?_)
    exact describes.vector_data datum item (List.mem_reverse.mp member)
  · exact Safe.newString describes _
  · refine (Safe.listItems describes datum).bind fun W' later items _ described data => ?_
    exact Safe.newList described fun item member => data item (List.mem_reverse.mp member)

theorem Safe.nthOf (n : Nat) (describes : W.Describes image) (list : Value) :
    Gives W image (nthOf n list) .datum := by
  induction n generalizing list with
  | zero => exact Safe.carOf describes list
  | succ n ih =>
      cases list with
      | cons address => exact Safe.ofHeap (ih _)
      | nil => exact Safe.gives describes trivial
      | _ => exact Safe.typeError describes _ _

end Lists

section Symbols

theorem Safe.symbolValue (describes : W.Describes image) (value : Value) :
    Gives W image (symbolValue value) .datum := by
  refine (Safe.symbolOf describes value).bind fun W' later id _ described _ => ?_
  refine Safe.ofSymbols ?_
  split
  · rename_i bound slot
    exact Safe.gives described ((described.symbol_ok id).value bound slot)
  · exact Safe.described (Safe.fail described trivial)

theorem Safe.symbolFunction (describes : W.Describes image) (value : Value) :
    Gives W image (symbolFunction value) .datum := by
  refine (Safe.symbolOf describes value).bind fun W' later id _ described _ => ?_
  refine Safe.ofSymbols ?_
  split
  · rename_i function slot
    exact Safe.gives described ((described.symbol_ok id).function function slot)
  · exact Safe.described (Safe.fail described trivial)

theorem Safe.setValue (describes : W.Describes image) (place : Value) (datum : W.Datum value) :
    Gives W image (setValue place value) .datum := by
  refine (Safe.symbolOf describes place).bind fun W' later id follows described _ => ?_
  have kept := follows.datum datum
  refine (Safe.modifySymbols described (described.symbols.setValue id ?_)).bind
    fun _ _ _ further again _ => Safe.gives again (further.datum kept)
  simpa using kept

theorem Safe.setFunction (describes : W.Describes image) (place : Value)
    (datum : W.Datum value) :
    Gives W image (setFunction place value) .datum := by
  refine (Safe.symbolOf describes place).bind fun W' later id follows described _ => ?_
  have kept := follows.datum datum
  split
  · refine (Safe.modifySymbols described (described.symbols.setFunction id ?_)).bind
      fun _ _ _ further again _ => Safe.gives again (further.datum kept)
    simpa using kept
  · exact Safe.typeError described _ _

theorem findProperty?_datum {indicator : Value} (data : W.Data items)
    (found : findProperty? indicator items = some value) :
    W.Datum value := by
  fun_induction findProperty? indicator items with
  | case1 => contradiction
  | case2 key =>
      obtain rfl := Option.some.inj found
      trivial
  | case3 key => contradiction
  | case4 key held rest =>
      obtain rfl := Option.some.inj found
      exact data _ (by simp)
  | case5 key held rest different ih => exact ih (data.drop 2) found

theorem Safe.getFromPlist (describes : W.Describes image) (symbol indicator : Value)
    (datum : W.Datum value) :
    Gives W image (getFromPlist symbol indicator value) .datum := by
  refine (Safe.symbolOf describes symbol).bind fun W₁ image₁ id follows described _ => ?_
  refine Safe.ofSymbols ?_
  refine (Safe.listItems described (described.symbol_ok id).plist).bind
    fun W₂ image₂ items further described data => ?_
  refine Safe.gives described ?_
  cases found : findProperty? indicator items with
  | none => exact further.datum (follows.datum datum)
  | some held => exact findProperty?_datum data found

theorem Safe.packageNamed (describes : W.Describes image) (name : String) :
    Safe W image (packageNamed name) fun _ _ => True := by
  refine Safe.ofSymbols ?_
  split
  · exact Safe.gives describes trivial
  · exact Safe.fail describes trivial

theorem Safe.packageOf (describes : W.Describes image) (designator : Value) :
    Safe W image (packageOf designator) fun _ _ => True := by
  unfold Machine.packageOf
  split
  · exact Safe.gives describes trivial
  · exact Safe.packageNamed describes _
  · exact Safe.ofSymbols (Safe.packageNamed describes _)
  · exact Safe.typeError describes _ _

theorem Safe.intern (describes : W.Describes image) (args : List Value) :
    Gives W image (intern args) .datum := by
  unfold Machine.intern
  split
  · split
    · refine (Safe.packageOf describes _).bind fun _ _ package _ described _ => ?_
      exact (Safe.interned described _ _).widen Kind.symbol_within_datum
    · rw [map_eq_pure_bind, bind_assoc]
      refine Safe.ofSymbols ?_
      rw [pure_bind]
      exact (Safe.interned describes _ _).widen Kind.symbol_within_datum
  · exact Safe.typeError describes _ _

theorem Safe.makeSymbol (describes : W.Describes image) (name : Value) :
    Gives W image (makeSymbol name) .datum := by
  unfold Machine.makeSymbol
  split
  · exact (Safe.madeSymbol describes _).widen Kind.symbol_within_datum
  · exact Safe.typeError describes _ _

theorem Safe.gensym (describes : W.Describes image) (args : List Value) :
    Gives W image (gensym args) .datum :=
  (Safe.generated describes _).widen Kind.symbol_within_datum

end Symbols

theorem Safe.docstring (describes : W.Describes image) (function : Value) :
    W.Datum function → Gives W image (match function with
      | .function address => do
          match (← Run.heap).property address "docstring" with
          | .undefined => return .nil
          | text => return text
      | _ => return .nil) .datum := by
  intro held
  split
  · refine Safe.ofHeap ?_
    split
    · exact Safe.gives describes trivial
    · rename_i other_ne
      rcases describes.property_datum held.1 "docstring" with text | missing
      · exact Safe.gives describes text
      · exact absurd missing other_ne
  · exact Safe.gives describes trivial

theorem Safe.documentation (describes : W.Describes image) (datum : W.Datum value) :
    Gives W image (documentation value) .datum := by
  unfold Machine.documentation
  split
  · rename_i id
    refine Safe.ofSymbols (Safe.docstring describes _ ?_)
    cases slot : (image.symbols.symbol id).function with
    | none => trivial
    | some function => exact (describes.symbol_ok id).function function slot
  · exact Safe.docstring describes value datum

theorem Safe.itemAt (describes : W.Describes image) (n : Float) (sequence : Value)
    (item? : Option Value) :
    (∀ item ∈ item?, W.Datum item) → Gives W image (match item? with
      | some item => pure item
      | none => do Run.fail (.signal ("index " ++ Number.messageText n ++
          " out of bounds for " ++ (← Run.describe sequence)))) .datum := by
  intro held
  split
  · exact Safe.gives describes (held _ rfl)
  · exact Safe.described (Safe.fail describes trivial)

theorem Safe.elementOf (describes : W.Describes image) {sequence : Value} (position : Value)
    (datum : W.Datum sequence) :
    Gives W image (elementOf sequence position) .datum := by
  refine (Safe.numberOf describes position).bind fun W₁ image₁ n follows described _ => ?_
  dsimp only
  split
  · refine Safe.ofHeap (Safe.itemAt described n _ _ fun item inside => ?_)
    exact described.vector_fits (follows.datum datum) item (Array.mem_of_getElem? inside)
  · refine Safe.itemAt described n _ _ fun item inside => ?_
    obtain ⟨character, -, rfl⟩ := Option.map_eq_some_iff.mp inside
    trivial
  · exact Safe.typeError_bind described _ _

theorem Safe.signalError (describes : W.Describes image) (args : List Value) :
    Gives W image (signalError args) .datum := by
  unfold Machine.signalError
  split
  · exact .failed W (World.Extends.refl W) (Leads.refl W image) describes trivial
  · exact Safe.described (Safe.fail describes trivial)

/-- Every built-in function that calls nothing gives a value of the language. -/
theorem Safe.runBuiltin (p : Primitive) (plain : p.takesAcceptor = false)
    (describes : W.Describes image) (data : W.Data args) :
    Gives W image (runBuiltin p args) .datum := by
  have first := data.actual 0
  have second := data.actual 1
  cases p with
  | add => exact Safe.accumulate _ _ describes _
  | sub => exact Safe.subtract describes args
  | mul => exact Safe.accumulate _ _ describes _
  | div => exact Safe.divide describes args
  | inc =>
      exact (Safe.numberOf describes _).bind fun _ _ _ _ described _ => Safe.gives described trivial
  | dec =>
      exact (Safe.numberOf describes _).bind fun _ _ _ _ described _ => Safe.gives described trivial
  | floorMod => exact Safe.floorMod describes args
  | numEq => exact Safe.chain _ describes args
  | lt => exact Safe.chain _ describes args
  | gt => exact Safe.chain _ describes args
  | le => exact Safe.chain _ describes args
  | ge => exact Safe.chain _ describes args
  | cons =>
      exact Safe.done (Follows.stay (World.Extends.refl W) rfl rfl)
        (describes.allocCell first second) rfl trivial
  | car => exact Safe.carOf describes _
  | cdr => exact Safe.cdrOf describes _
  | rplaca => exact Safe.replaceCar describes _ second
  | rplacd => exact Safe.replaceCdr describes _ second
  | list => exact Safe.newList describes data
  | listStar => exact Safe.listStar describes data
  | append => exact Safe.appendLists describes data
  | length => exact Safe.lengthOf describes first
  | reverse => exact Safe.reverseOf describes first
  | nth => exact (Safe.numberOf describes _).bind fun _ _ _ _ described _ => Safe.nthOf _ described _
  | equal => exact Safe.ofHeap (Safe.gives describes (W.datum_ofBool _))
  | keywordp =>
      simp only [Machine.runBuiltin]
      split
      · exact Safe.ofSymbols (Safe.gives describes (W.datum_ofBool _))
      · exact Safe.gives describes trivial
  | symbolValue => exact Safe.symbolValue describes _
  | symbolFunction => exact Safe.symbolFunction describes _
  | set => exact Safe.setValue describes _ second
  | fset => exact Safe.setFunction describes _ second
  | boundp =>
      refine Safe.ofSymbols ((Safe.symbolOf describes _).bind fun W' _ _ _ described _ => ?_)
      exact Safe.gives described (W'.datum_ofBool _)
  | fboundp =>
      refine Safe.ofSymbols ((Safe.symbolOf describes _).bind fun W' _ _ _ described _ => ?_)
      exact Safe.gives described (W'.datum_ofBool _)
  | symbolName =>
      refine Safe.ofSymbols ((Safe.symbolOf describes _).bind fun _ _ _ _ described _ => ?_)
      exact Safe.newString described _
  | symbolPlist =>
      refine Safe.ofSymbols ((Safe.symbolOf describes _).bind fun _ _ id follows described _ => ?_)
      exact Safe.gives described (follows.datum (describes.symbol_ok id).plist)
  | get => exact Safe.getFromPlist describes _ _ (data.actual 2)
  | intern => exact Safe.intern describes args
  | makeSymbol => exact Safe.makeSymbol describes _
  | gensym => exact Safe.gensym describes args
  | documentation => exact Safe.documentation describes first
  | vector => exact Safe.newVector describes data
  | aref => exact Safe.elementOf describes _ first
  | error => exact Safe.signalError describes args
  | funcall => contradiction
  | apply => contradiction
  | values => contradiction
  | valuesList => contradiction
  | _ => exact Safe.gives describes (W.datum_ofBool _)

section Routines

theorem Safe.packValues (describes : W.Describes image) (data : W.Data values) :
    Gives W image (packValues values) .many := by
  unfold Machine.packValues
  split
  · exact Safe.gives describes (.inl (data _ List.mem_cons_self))
  · exact Safe.done (Follows.stay (World.Extends.refl W) rfl rfl) (describes.allocBundle data) rfl
      (.inr ⟨_, rfl⟩)

theorem Safe.coerceFunction (describes : W.Describes image) (datum : W.Datum value) :
    Gives W image (coerceFunction value) .datum := by
  unfold Machine.coerceFunction
  split
  · exact Safe.gives describes datum
  · split
    · rename_i id _
      refine Safe.ofSymbols ?_
      split
      · rename_i function slot
        exact Safe.gives describes ((describes.symbol_ok id).function function slot)
      · exact Safe.described (Safe.fail describes trivial)
    · exact Safe.described (Safe.fail describes trivial)

theorem Safe.count (describes : W.Describes image) (value : Value) :
    Safe W image (count value) fun _ _ => True := by
  unfold Machine.count
  split
  · split
    · exact Safe.gives describes trivial
    · exact Safe.typeError describes _ _
  · exact Safe.typeError describes _ _

theorem Safe.characterOf (describes : W.Describes image) (value : Value) :
    Gives W image (characterOf value) .datum := by
  refine (Safe.count describes value).bind fun _ _ _ _ described _ => ?_
  dsimp only
  split
  · exact Safe.gives described trivial
  · exact Safe.typeError described _ _

theorem Safe.internSymbol (describes : W.Describes image) {a b : Address} {name package : String}
    (known : package ∈ packageNames ∨ package = "") :
    Gives W image (internSymbol [.string a name, .string b package]) .symbol := by
  refine Safe.ofSymbols ?_
  split
  · exact Safe.interned describes _ _
  · rename_i missing
    split
    · exact Safe.interned describes _ _
    · rename_i nonempty
      rcases known with member | rfl
      · have found := describes.symbols.named _ member
        rw [missing] at found
        contradiction
      · exact absurd (by rfl) nonempty

theorem Safe.uninternedSymbol (describes : W.Describes image) {a : Address} {name : String}
    {number : Float} :
    Gives W image (uninternedSymbol [.string a name, .number number]) .symbol := by
  refine Safe.ofSymbols ?_
  rw [pure_bind]
  split
  · rename_i uninterned
    refine Safe.gives describes ⟨fun same => ?_, rfl⟩
    obtain ⟨symbol, first, home⟩ := describes.symbols.nil
    rw [same] at uninterned
    simp only [Bool.and_eq_true] at uninterned
    have homeless := uninterned.1.2
    have at_nil : image.symbols.symbol SymbolId.nil = symbol := getD_of_getElem? first
    rw [at_nil] at homeless
    cases slot : symbol.home <;> simp [slot] at home homeless
  · exact Safe.madeSymbol describes _

end Routines

end LispScript.Discipline
