import LispScript.Proofs.Soundness

/-!
What holds of the compiler's state between any two of its steps, and how steps are put together. The
state only grows: counters go on, declared uses stay, and literals stay where they are.
-/

namespace LispScript.Discipline

open Script Machine Compiler

section Literals

/-- The kind of the variable that holds a literal. -/
def literalKind : LiteralKey → Kind
  | .symbol _ => .symbol
  | _ => .datum

/-- What the code that makes a literal gives. -/
def madeKind : Expr → Kind
  | .call (.support (.native (.routine .internSymbol))) _ => .symbol
  | .call (.support (.native (.routine .uninternedSymbol))) _ => .symbol
  | _ => .datum

/-- A literal of a unit: the number in its name and the code that makes it. -/
structure Entry where
  number : Nat
  value : Expr

def Entry.name (entry : Entry) : String := literalName entry.number

def Entry.kind (entry : Entry) : Kind := madeKind entry.value

def Entry.stmt (entry : Entry) : Stmt := .define entry.name entry.value

/-- A frame in which literals are there. -/
def Frame.Knows (frame : Frame) (entries : List Entry) : Prop :=
  ∀ entry ∈ entries, frame.kinds entry.name = some entry.kind

/-- Literals each of which is made from those before it. -/
inductive Written : List Entry → Prop where
  | nil : Written []
  | snoc (before : Written entries)
      (value : ∀ frame : Frame, frame.Knows entries →
        Derivable frame (.expr entry.value entry.kind))
      (later : ∀ other ∈ entries, other.number < entry.number) : Written (entries ++ [entry])

/-- The literals of the unit under compilation. -/
structure LiteralsOk (literals : Literals) (count : Nat) (entries : List Entry) : Prop where
  written : Written entries
  initializers : literals.initializers.toList = entries.map Entry.stmt
  names : ∀ key name, literals.names[LiteralKey.code key]? = some name →
    ∃ entry ∈ entries, entry.name = name ∧ entry.kind = literalKind key
  counted : ∀ entry ∈ entries, entry.number ≤ count

end Literals

section States

/-- What the meaning of a name refers to is data, where it is a value. -/
def ReferenceOk (W : World) : Reference → Prop
  | .expander value | .constant value => W.Datum value
  | _ => True

def IsGlobal : Reference → Prop
  | .slot | .expander _ | .constant _ => True
  | _ => False

structure BindingOk (W : World) (s : CompileState) (binding : Binding) : Prop where
  known : binding.declarations < s.bindings.declarations.size
  reference : ReferenceOk W binding.reference

def EnvOk (W : World) (s : CompileState) (env : Environment) : Prop :=
  ∀ binding ∈ env, BindingOk W s binding

/-- No counter is beyond the largest machine word. -/
structure Bounded (c : Counters) : Prop where
  vars : c.vars ≤ Number.wordLimit
  literals : c.literals ≤ Number.wordLimit
  blocks : c.blocks ≤ Number.wordLimit
  tagbodies : c.tagbodies ≤ Number.wordLimit

/-- What holds between any two steps of the compiler. -/
structure CompilerOk (W : World) (s : CompileState) : Prop where
  describes : W.Describes s.image
  someScope : W.scopes ≠ []
  bounded : Bounded s.counters
  globals : ∀ (key : Nat) binding, s.bindings.globals[key]? = some binding →
    BindingOk W s binding ∧ IsGlobal binding.reference
  literals : ∃ entries, LiteralsOk s.literals s.counters.literals entries

/-- A later state of the compiler. -/
structure Progress (s s' : CompileState) : Prop where
  counters : s.counters.Leads s'.counters
  declarations : s.bindings.declarations.size ≤ s'.bindings.declarations.size
  used : ∀ binding, (s.bindings.declared binding).used = true →
    (s'.bindings.declared binding).used = true
  literals : ∀ stmt ∈ s.literals.initializers.toList, stmt ∈ s'.literals.initializers.toList

/-- A later state, of the compiler and of the world. -/
structure Further (W : World) (s : CompileState) (W' : World) (s' : CompileState) : Prop where
  extends_ : W.Extends W'
  progress : Progress s s'

/-- An interrupt that programs of the language can come to: not a fault of the host, nor a thrown
value that is no signal. -/
def IsLanguage : Interrupt → Prop
  | .thrown (.transfer _) | .outOfSteps => True
  | .thrown _ => False
  | .failed error => IsLanguageError error

/-- The failure that a run comes to within the language. Of the host there is only the end of the
steps that a run was given. -/
def FromLanguage (cause : RuntimeError) : Prop :=
  IsLanguageError cause ∨ cause = .host "out of steps"

theorem IsLanguage.asError {interrupt : Interrupt} (isLanguage : IsLanguage interrupt)
    (image : Image) : FromLanguage (interrupt.asError image) := by
  cases interrupt with
  | thrown value => cases value <;> first | exact isLanguage.elim | exact .inl trivial
  | failed error => exact .inl isLanguage
  | outOfSteps => exact .inr rfl

/-- Where an error of the compiler tells of the failure of a run, the run stayed within the
language. -/
def Explained : CompileError → Prop
  | .macroExpansion _ (.failed cause) | .compileTimeEval cause => FromLanguage cause
  | _ => True

/-- How a step of the compiler ends. -/
inductive Builds (W : World) (s : CompileState) (post : World → CompileState → α → Prop) :
    EStateM.Result CompileError CompileState α → Prop where
  | ok (W' : World) (further : Further W s W' s') (ok : CompilerOk W' s') (held : post W' s' a) :
      Builds W s post (.ok a s')
  | error (W' : World) (further : Further W s W' s') (ok : CompilerOk W' s')
      (explained : Explained e) : Builds W s post (.error e s')

/-- A step that keeps the compiler's state in order. -/
abbrev Built (W : World) (s : CompileState) (step : Compile α)
    (post : World → CompileState → α → Prop) : Prop :=
  Builds W s post (step s)

end States

section Progress

variable {s s' s'' : CompileState} {W W' W'' : World}

theorem Progress.refl (s : CompileState) : Progress s s :=
  ⟨Counters.Leads.refl _, Nat.le_refl _, fun _ used => used, fun _ member => member⟩

theorem Progress.trans (first : Progress s s') (second : Progress s' s'') : Progress s s'' :=
  ⟨first.counters.trans second.counters, Nat.le_trans first.declarations second.declarations,
    fun binding used => second.used binding (first.used binding used),
    fun stmt member => second.literals stmt (first.literals stmt member)⟩

theorem Further.refl (W : World) (s : CompileState) : Further W s W s :=
  ⟨World.Extends.refl W, Progress.refl s⟩

theorem Further.trans (first : Further W s W' s') (second : Further W' s' W'' s'') :
    Further W s W'' s'' :=
  ⟨first.extends_.trans second.extends_, first.progress.trans second.progress⟩

theorem Further.datum (further : Further W s W' s') {value : Value} (datum : W.Datum value) :
    W'.Datum value :=
  further.extends_.grows.datum datum

theorem Further.data (further : Further W s W' s') {values : List Value} (data : W.Data values) :
    W'.Data values :=
  fun value member => further.datum (data value member)

theorem ReferenceOk.further {reference : Reference} (ok : ReferenceOk W reference)
    (further : Further W s W' s') :
    ReferenceOk W' reference := by
  cases reference with
  | expander value => exact further.datum ok
  | constant value => exact further.datum ok
  | _ => trivial

theorem BindingOk.further {binding : Binding} (ok : BindingOk W s binding)
    (further : Further W s W' s') :
    BindingOk W' s' binding :=
  ⟨Nat.lt_of_lt_of_le ok.known further.progress.declarations, ok.reference.further further⟩

theorem EnvOk.further {env : Environment} (ok : EnvOk W s env) (further : Further W s W' s') :
    EnvOk W' s' env :=
  fun binding member => (ok binding member).further further

end Progress

section Steps

variable {W W' : World} {s s' : CompileState} {post post' : World → CompileState → α → Prop}

theorem Builds.mono {result : EStateM.Result CompileError CompileState α}
    (builds : Builds W s post result)
    (included : ∀ W' s' a, post W' s' a → post' W' s' a) :
    Builds W s post' result := by
  cases builds with
  | ok W' further ok held => exact .ok W' further ok (included W' _ _ held)
  | error W' further ok explained => exact .error W' further ok explained

/-- What follows from the result of a step, and from its being a later one. -/
theorem Builds.since {result : EStateM.Result CompileError CompileState α}
    (builds : Builds W s post result)
    (included : ∀ W' s' a, Further W s W' s' → post W' s' a → post' W' s' a) :
    Builds W s post' result := by
  cases builds with
  | ok W' further ok held => exact .ok W' further ok (included W' _ _ further held)
  | error W' further ok explained => exact .error W' further ok explained

/-- A step with some before it. -/
theorem Builds.after {result : EStateM.Result CompileError CompileState α}
    (further : Further W s W' s') (builds : Builds W' s' post result) :
    Builds W s post result := by
  cases builds with
  | ok W'' more ok held => exact .ok W'' (further.trans more) ok held
  | error W'' more ok explained => exact .error W'' (further.trans more) ok explained

theorem Built.bind {step : Compile α} {rest : α → Compile β}
    {last : World → CompileState → β → Prop} (first : Built W s step post)
    (second : ∀ W' s' a, Further W s W' s' → CompilerOk W' s' → post W' s' a →
      Built W' s' (rest a) last) :
    Built W s (step >>= rest) last := by
  change Builds W s last (EStateM.bind step rest s)
  rw [EStateM.bind]
  cases run_eq : step s with
  | ok a s' =>
      rw [Built, run_eq] at first
      cases first with
      | ok W' further ok held => exact Builds.after further (second W' s' a further ok held)
  | error e s' =>
      rw [Built, run_eq] at first
      cases first with
      | error W' further ok explained => exact .error W' further ok explained

/-- A step that has succeeded. -/
theorem Built.ended {step : Compile α} {a : α} (built : Built W s step post)
    (done : step s = .ok a s') : ∃ W', Further W s W' s' ∧ CompilerOk W' s' ∧ post W' s' a := by
  rw [Built, done] at built
  cases built with
  | ok W' further ok held => exact ⟨W', further, ok, held⟩

theorem Built.gives {a : α} (ok : CompilerOk W s) (held : post W s a) :
    Built W s (pure a) post :=
  .ok W (Further.refl W s) ok held

/-- A step that reads the state. -/
theorem Built.reads {step : Compile α} {a : α} (ok : CompilerOk W s) (reads : step s = .ok a s)
    (held : post W s a) :
    Built W s step post := by
  rw [Built, reads]
  exact .ok W (Further.refl W s) ok held

theorem Built.fails {e : CompileError} (ok : CompilerOk W s) (explained : Explained e) :
    Built W s (throw e : Compile α) post :=
  .error W (Further.refl W s) ok explained

end Steps

section Reading

variable {W : World} {s : CompileState} {post : World → CompileState → α → Prop}

theorem Built.ofHeap {f : Heap → Compile α} (built : Built W s (f s.image.heap) post) :
    Built W s (Compiler.heap >>= f) post :=
  built

theorem Built.ofSymbols {f : SymbolTable → Compile α} (built : Built W s (f s.image.symbols) post) :
    Built W s (Compiler.symbols >>= f) post :=
  built

theorem Built.ofState {f : CompileState → Compile α} (built : Built W s (f s) post) :
    Built W s (get >>= f) post :=
  built

theorem Built.described {f : String → Compile α} {value : Value}
    (built : Built W s (f (s.image.print value)) post) :
    Built W s (Compiler.describe value >>= f) post :=
  built

theorem Built.named {f : String → Compile α} {id : SymbolId}
    (built : Built W s (f (s.image.symbols.symbolName id)) post) :
    Built W s (Compiler.symbolName id >>= f) post :=
  built

theorem Built.ofDeclared {f : Declarations → Compile α} {binding : Binding}
    (built : Built W s (f (s.bindings.declared binding)) post) :
    Built W s (Compiler.declared binding >>= f) post :=
  built

theorem Built.malformed (ok : CompilerOk W s) (form : Value) (reason : String) :
    Built W s (Compiler.malformed form reason : Compile α) post :=
  Built.described (Built.fails ok trivial)

theorem Built.malformed_bind {f : β → Compile α} (ok : CompilerOk W s) (form : Value)
    (reason : String) :
    Built W s (Compiler.malformed form reason >>= f) post :=
  .error W (Further.refl W s) ok trivial

theorem Built.expectArgs (ok : CompilerOk W s) (form : Value) (args : List Value) (min : Nat)
    (max : Option Nat) :
    Built W s (Compiler.expectArgs form args min max) fun _ _ _ => True := by
  unfold Compiler.expectArgs
  cases max with
  | none =>
      dsimp only
      split
      · exact Built.malformed ok _ _
      · exact Built.gives ok trivial
  | some max =>
      dsimp only
      split
      · exact Built.malformed ok _ _
      · exact Built.gives ok trivial

theorem Built.symbolArg (ok : CompilerOk W s) (form value : Value) (what : String) :
    Built W s (Compiler.symbolArg form value what) fun _ _ _ => True := by
  unfold Compiler.symbolArg
  split
  · exact Built.gives ok trivial
  · exact Built.malformed ok _ _

theorem Built.listArg (ok : CompilerOk W s) (form : Value) {value : Value} (datum : W.Datum value)
    (what : String) :
    Built W s (Compiler.listArg form value what) fun W' _ items => W'.Data items := by
  refine Built.ofHeap ?_
  cases found : s.image.heap.listItems? value with
  | none => exact Built.malformed ok _ _
  | some items => exact Built.gives ok (listItems_data ok.describes datum found)

theorem Built.carOf? (ok : CompilerOk W s) {value : Value} (datum : W.Datum value) :
    Built W s (Compiler.carOf? value) fun W' _ car => ∀ held ∈ car, W'.Datum held := by
  cases value with
  | cons address =>
      refine Built.ofHeap (Built.gives ok fun held same => ?_)
      obtain rfl := Option.some.inj same
      exact (ok.describes.cell_datum address).1
  | _ => exact Built.gives ok nofun

theorem Built.restItems? (ok : CompilerOk W s) {value : Value} (datum : W.Datum value) :
    Built W s (Compiler.restItems? value) fun W' _ items => ∀ rest ∈ items, W'.Data rest := by
  cases value with
  | cons address =>
      refine Built.ofHeap (Built.gives ok fun rest found => ?_)
      exact listItems_data ok.describes (ok.describes.cell_datum address).2 found
  | _ => exact Built.gives ok nofun

end Reading

section Lists

variable {W : World} {s : CompileState}

/-- Steps on the items of a list, one after the other. -/
theorem Built.mapM {α β : Type} {f : α → Compile β} {items : List α}
    (known : World → CompileState → Prop)
    (post : α → CompileState → World → CompileState → β → Prop)
    (ok : CompilerOk W s) (here : known W s)
    (later : ∀ W s W' s', known W s → Further W s W' s' → known W' s')
    (wider : ∀ item s s₁ W₂ s₂ W' s' b, Progress s s₁ → post item s₁ W₂ s₂ b →
      Further W₂ s₂ W' s' → post item s W' s' b)
    (each : ∀ item ∈ items, ∀ W s, CompilerOk W s → known W s →
      Built W s (f item) fun W' s' b => post item s W' s' b) :
    Built W s (items.mapM f) fun W' s' results =>
      List.Forall₂ (fun item b => post item s W' s' b) items results := by
  induction items generalizing W s with
  | nil =>
      rw [List.mapM_nil]
      exact Built.gives ok .nil
  | cons item rest ih =>
      rw [List.mapM_cons]
      refine Built.bind (each item List.mem_cons_self W s ok here) fun W₁ s₁ b first ok₁ held => ?_
      refine Built.bind (ih ok₁ (later _ _ _ _ here first) fun other member =>
        each other (List.mem_cons_of_mem _ member)) fun W₂ s₂ bs second ok₂ all => ?_
      refine Built.gives ok₂ (.cons (wider _ _ _ _ _ _ _ _ (Progress.refl _) held second) ?_)
      exact all.imp fun _ _ held => wider _ _ _ _ _ _ _ _ first.progress held (Further.refl _ _)

theorem forall_of_forall₂ {R : α → β → Prop} {P : β → Prop} {items : List α} {results : List β}
    (related : List.Forall₂ R items results) (holds : ∀ item b, R item b → P b) :
    results.length = items.length ∧ ∀ b ∈ results, P b := by
  induction related with
  | nil => exact ⟨rfl, nofun⟩
  | cons first _ ih => exact ⟨by simp [ih.1], List.forall_mem_cons.mpr ⟨holds _ _ first, ih.2⟩⟩

/-- Steps that hand something on, which stays in order. -/
theorem Built.foldlM {f : β → α → Compile β} {b : β} {holds : World → CompileState → β → Prop}
    {items : List α} (ok : CompilerOk W s) (here : holds W s b)
    (each : ∀ item ∈ items, ∀ W s b, CompilerOk W s → holds W s b →
      Built W s (f b item) holds) :
    Built W s (items.foldlM f b) holds := by
  induction items generalizing W s b with
  | nil => exact Built.gives ok here
  | cons item rest ih =>
      rw [List.foldlM_cons]
      refine Built.bind (each item List.mem_cons_self W s b ok here) fun W₁ s₁ b₁ _ ok₁ held => ?_
      exact ih ok₁ held fun other member => each other (List.mem_cons_of_mem _ member)

theorem Built.forM {f : α → Compile Unit} {items : List α} (holds : World → CompileState → Prop)
    (ok : CompilerOk W s) (here : holds W s)
    (each : ∀ item ∈ items, ∀ W s, CompilerOk W s → holds W s →
      Built W s (f item) fun W' s' _ => holds W' s') :
    Built W s (items.forM f) fun W' s' _ => holds W' s' := by
  induction items generalizing W s with
  | nil => exact Built.gives ok here
  | cons item rest ih =>
      rw [List.forM_eq_forM, List.forM_cons]
      refine Built.bind (each item List.mem_cons_self W s ok here) fun W₁ s₁ _ _ ok₁ held => ?_
      exact ih ok₁ held fun other member => each other (List.mem_cons_of_mem _ member)

theorem Built.anyM {f : α → Compile Bool} {items : List α} (ok : CompilerOk W s)
    (each : ∀ item ∈ items, ∀ W s, CompilerOk W s → Built W s (f item) fun _ _ _ => True) :
    Built W s (items.anyM f) fun _ _ _ => True := by
  induction items generalizing W s with
  | nil => exact Built.gives ok trivial
  | cons item rest ih =>
      rw [List.anyM]
      refine Built.bind (each item List.mem_cons_self W s ok) fun W₁ s₁ found _ ok₁ _ => ?_
      cases found with
      | true => exact Built.gives ok₁ trivial
      | false => exact ih ok₁ fun other member => each other (List.mem_cons_of_mem _ member)

end Lists

section Making

variable {W : World} {s : CompileState}

/-- Another image, which is described again. -/
theorem CompilerOk.withImage (ok : CompilerOk W s) {W' : World} (extends_ : W.Extends W')
    {image : Image} (describes : W'.Describes image) :
    Further W s W' { s with image } ∧ CompilerOk W' { s with image } := by
  have further : Further W s W' { s with image } :=
    ⟨extends_, Counters.Leads.refl _, Nat.le_refl _, fun _ used => used, fun _ member => member⟩
  refine ⟨further, describes, fun none => ok.someScope ?_, ok.bounded, fun key binding found => ?_,
    ok.literals⟩
  · exact List.prefix_nil.mp (none ▸ extends_.scopes)
  · obtain ⟨known, isGlobal⟩ := ok.globals key binding found
    exact ⟨known.further further, isGlobal⟩

/-- What the compiler does to objects as running code does it. -/
theorem Built.onHeap {f : Heap → α × Heap} {good : World → α → Prop} (ok : CompilerOk W s)
    (safe : Safe W s.image (Run.onHeap f) good) :
    Built W s (Compiler.onHeap f) fun W' _ => good W' := by
  have run_eq : Run.onHeap f s.image =
      .ok (f s.image.heap).1 { s.image with heap := (f s.image.heap).2 } := rfl
  rw [Safe, run_eq] at safe
  cases safe with
  | ok W' extends_ leads describes settled held =>
      obtain ⟨further, ok'⟩ := ok.withImage extends_ describes
      exact .ok W' further ok' held

theorem Built.onSymbols {f : SymbolTable → α × SymbolTable} {good : World → α → Prop}
    (ok : CompilerOk W s) (safe : Safe W s.image (Run.onSymbols f) good) :
    Built W s (Compiler.onSymbols f) fun W' _ => good W' := by
  have run_eq : Run.onSymbols f s.image =
      .ok (f s.image.symbols).1 { s.image with symbols := (f s.image.symbols).2 } := rfl
  rw [Safe, run_eq] at safe
  cases safe with
  | ok W' extends_ leads describes settled held =>
      obtain ⟨further, ok'⟩ := ok.withImage extends_ describes
      exact .ok W' further ok' held

theorem Built.newCons (ok : CompilerOk W s) {car cdr : Value} (datumCar : W.Datum car)
    (datumCdr : W.Datum cdr) :
    Built W s (Compiler.newCons car cdr) fun W' _ => W'.Datum := by
  have safe : Safe W s.image (Run.onHeap (·.allocCell car cdr)) fun W' => W'.Datum :=
    Safe.done (Follows.stay (World.Extends.refl W) rfl rfl)
      (ok.describes.allocCell datumCar datumCdr) rfl trivial
  exact Built.onHeap ok safe

theorem Built.newListWithTail (ok : CompilerOk W s) {items : List Value} {tail : Value}
    (data : W.Data items) (datum : W.Datum tail) :
    Built W s (Compiler.newListWithTail items tail) fun W' _ => W'.Datum :=
  Built.onHeap ok (Safe.newListWithTail ok.describes data datum)

theorem Built.newList (ok : CompilerOk W s) {items : List Value} (data : W.Data items) :
    Built W s (Compiler.newList items) fun W' _ => W'.Datum :=
  Built.onHeap ok (Safe.newList ok.describes data)

theorem Built.gensym (ok : CompilerOk W s) (stem : String) :
    Built W s (Compiler.onSymbols (·.gensym stem)) fun W' _ id => W'.Datum (.symbol id) := by
  obtain ⟨symbolsOk, symbol⟩ := ok.describes.symbols.gensym stem
  have safe : Safe W s.image (Run.onSymbols (·.gensym stem)) fun W' id => W'.Datum (.symbol id) :=
    Safe.onSymbols ok.describes symbolsOk symbol.1
  exact Built.onSymbols ok safe

theorem Built.internKeyword (ok : CompilerOk W s) (name : String) :
    Built W s (Compiler.onSymbols (·.internKeyword name)) fun _ _ _ => True := by
  have safe : Safe W s.image (Run.onSymbols (·.internKeyword name)) fun _ _ => True :=
    Safe.onSymbols ok.describes (ok.describes.symbols.intern name _) trivial
  exact Built.onSymbols ok safe

end Making

section Counting

variable {W : World} {s : CompileState}

/-- Counters that go on. -/
theorem CompilerOk.withCounters (ok : CompilerOk W s) {counters : Counters}
    (leads : s.counters.Leads counters) (bounded : Bounded counters) :
    Further W s W { s with counters } ∧ CompilerOk W { s with counters } := by
  have further : Further W s W { s with counters } :=
    ⟨World.Extends.refl W, leads, Nat.le_refl _, fun _ used => used, fun _ member => member⟩
  refine ⟨further, ok.describes, ok.someScope, bounded, fun key binding found => ?_, ?_⟩
  · obtain ⟨known, isGlobal⟩ := ok.globals key binding found
    exact ⟨known.further further, isGlobal⟩
  · obtain ⟨entries, literals⟩ := ok.literals
    exact ⟨entries, literals.written, literals.initializers, literals.names,
      fun entry member => Nat.le_trans (literals.counted entry member) leads.literals⟩

/-- A step that counts on. -/
theorem Built.onCounters {f : Counters → α × Counters} {post : World → CompileState → α → Prop}
    (ok : CompilerOk W s)
    (counts : (f s.counters).2 ≠ s.counters → s.counters.Leads (f s.counters).2 ∧
      Bounded (f s.counters).2 ∧ post W { s with counters := (f s.counters).2 } (f s.counters).1) :
    Built W s (Compiler.onCounters f) post := by
  change Builds W s post (if (f s.counters).2 = s.counters then .error .outOfSteps s
    else .ok (f s.counters).1 { s with counters := (f s.counters).2 })
  split
  · exact .error W (Further.refl W s) ok trivial
  · rename_i goes
    obtain ⟨leads, bounded, held⟩ := counts goes
    obtain ⟨further, ok'⟩ := ok.withCounters leads bounded
    exact .ok W further ok' held

theorem next_le (n : Nat) : next n ≤ Number.wordLimit := Nat.min_le_right _ _

/-- Where a counter goes on, it goes on by one. -/
theorem lt_next {n : Nat} (bounded : n ≤ Number.wordLimit) (goes : next n ≠ n) : n < next n := by
  unfold next at goes ⊢
  omega

theorem le_next {n : Nat} (bounded : n ≤ Number.wordLimit) : n ≤ next n := by
  unfold next
  omega

/-- A new variable. -/
theorem Built.freshVariable (ok : CompilerOk W s) (hint : String) :
    Built W s (Compiler.freshVariable hint) fun _ s' name => Made s.counters s'.counters name := by
  refine Built.onCounters ok fun goes => ?_
  have bounded := ok.bounded
  have later : s.counters.vars < next s.counters.vars := lt_next bounded.vars fun same =>
    goes (congrArg (fun n => { s.counters with vars := n }) same)
  refine ⟨⟨Nat.le_of_lt later, Nat.le_refl _, Nat.le_refl _, Nat.le_refl _⟩,
    ⟨next_le _, bounded.literals, bounded.blocks, bounded.tagbodies⟩, ?_⟩
  exact .variable_ hint (next s.counters.vars) later (Nat.le_refl _)

theorem Built.freshVariableFor (ok : CompilerOk W s) (id : SymbolId) :
    Built W s (Compiler.freshVariableFor id) fun _ s' name => Made s.counters s'.counters name :=
  Built.named (Built.freshVariable ok _)

theorem Built.freshBlock (ok : CompilerOk W s) :
    Built W s (Compiler.onCounters Counters.freshBlock) fun _ s' name =>
      Made s.counters s'.counters name := by
  refine Built.onCounters ok fun goes => ?_
  have bounded := ok.bounded
  have later : s.counters.blocks < next s.counters.blocks := lt_next bounded.blocks fun same =>
    goes (congrArg (fun n => { s.counters with blocks := n }) same)
  refine ⟨⟨Nat.le_refl _, Nat.le_refl _, Nat.le_of_lt later, Nat.le_refl _⟩,
    ⟨bounded.vars, bounded.literals, next_le _, bounded.tagbodies⟩, ?_⟩
  exact .block (next s.counters.blocks) later (Nat.le_refl _)

theorem Built.freshTagbody (ok : CompilerOk W s) :
    Built W s (Compiler.onCounters Counters.freshTagbody) fun _ s' names =>
      Made s.counters s'.counters names.1 := by
  refine Built.onCounters ok fun goes => ?_
  have bounded := ok.bounded
  have later : s.counters.tagbodies < next s.counters.tagbodies :=
    lt_next bounded.tagbodies fun same =>
      goes (congrArg (fun n => { s.counters with tagbodies := n }) same)
  refine ⟨⟨Nat.le_refl _, Nat.le_refl _, Nat.le_refl _, Nat.le_of_lt later⟩,
    ⟨bounded.vars, bounded.literals, bounded.blocks, next_le _⟩, ?_⟩
  exact .tagbody (next s.counters.tagbodies) later (Nat.le_refl _)

theorem Built.freshTag (ok : CompilerOk W s) :
    Built W s (Compiler.onCounters Counters.freshTag) fun _ _ _ => True := by
  have bounded := ok.bounded
  exact Built.onCounters ok fun _ => ⟨⟨Nat.le_refl _, Nat.le_refl _, Nat.le_refl _, Nat.le_refl _⟩,
    ⟨bounded.vars, bounded.literals, bounded.blocks, bounded.tagbodies⟩, trivial⟩

theorem Built.freshUnit (ok : CompilerOk W s) :
    Built W s (Compiler.onCounters Counters.freshUnit) fun _ _ _ => True := by
  have bounded := ok.bounded
  exact Built.onCounters ok fun _ => ⟨⟨Nat.le_refl _, Nat.le_refl _, Nat.le_refl _, Nat.le_refl _⟩,
    ⟨bounded.vars, bounded.literals, bounded.blocks, bounded.tagbodies⟩, trivial⟩

end Counting

end LispScript.Discipline
