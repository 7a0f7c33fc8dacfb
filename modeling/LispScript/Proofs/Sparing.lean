import LispScript.Proofs.Resolution

/-!
Names that the compiler spares: a name that was made before is not made again, so no code compiled
later assigns to the variable of that name, unless the variable is known where the code stands. This
file has the compiler's own steps, down to the literals.
-/

namespace LispScript.Compiler

open Script Machine Discipline

section Names

/-- No name that will be made is this one, unless it is the name of a literal. -/
def Spent (c : Counters) (name : String) : Prop :=
  name ∈ reservedNames ∨ (∃ n, name = literalName n) ∨ Made {} c name

/-- None of the names is to be spared. -/
def Free (spared : String → Prop) (names : List String) : Prop := ∀ name ∈ names, ¬ spared name

/-- The name is that of a script variable which the environment knows. -/
def Environment.Hosts (env : Environment) (name : String) : Prop :=
  ∃ binding ∈ env, binding.reference = .host name

/-- The environment knows no variable that is to be spared. -/
def Apart (spared : String → Prop) (env : Environment) : Prop :=
  ∀ name, env.Hosts name → ¬ spared name

variable {spared : String → Prop} {names more : List String} {name : String} {c c' : Counters}

@[simp] theorem free_nil : Free spared [] := nofun

@[simp] theorem free_cons : Free spared (name :: names) ↔ ¬ spared name ∧ Free spared names := by
  simp [Free]

@[simp] theorem free_append :
    Free spared (names ++ more) ↔ Free spared names ∧ Free spared more := by
  simp [Free, or_imp, forall_and]

theorem Spent.later (spent : Spent c name) (leads : c.Leads c') : Spent c' name :=
  spent.imp id (.imp id (·.left leads))

theorem Spent.of_made (made : Made c c' name) : Spent c' name :=
  .inr (.inr (made.right ⟨Nat.zero_le _, Nat.zero_le _, Nat.zero_le _, Nat.zero_le _⟩))

theorem Spent.not_made (spent : Spent c name) (made : Made c c' name) : False := by
  rcases spent with reserved | ⟨n, literal⟩ | earlier
  · exact made.unreserved reserved
  · exact made.ne_literal n literal
  · exact earlier.disjoint made

theorem apart_nil : Apart spared [] := by
  rintro name ⟨_, member, _⟩
  cases member

theorem Apart.cons {env : Environment} {binding : Binding} (apart : Apart spared env)
    (new : ∀ name, binding.reference = .host name → ¬ spared name) :
    Apart spared (binding :: env) := by
  rintro name ⟨other, member, host⟩
  rcases List.mem_cons.mp member with rfl | member
  · exact new name host
  · exact apart name ⟨other, member, host⟩

end Names

section Code

variable {stmts : List Stmt} {codes : List Expr}

@[simp] theorem assigned_wrap : (Expr.wrap stmts).assigned = Stmt.assignedAll stmts := by
  simp [Expr.wrap, Expr.inPlace, Expr.assigned, Expr.assignedAll]

@[simp] theorem assigned_callRoutine (r : Routine) :
    (Expr.callRoutine r codes).assigned = Expr.assignedAll codes := by
  simp [Expr.callRoutine, Expr.routine, Expr.assigned]

@[simp] theorem assigned_callPrimitive (p : Primitive) :
    (Expr.callPrimitive p codes).assigned = Expr.assignedAll codes := by
  simp [Expr.callPrimitive, Expr.assigned]

@[simp] theorem assigned_statementsExpr :
    (statementsExpr stmts).assigned = Stmt.assignedAll stmts := by
  unfold statementsExpr
  split
  · simp [Stmt.assignedAll, Stmt.assigned]
  · exact assigned_wrap

@[simp] theorem assigned_truthTest (code : Expr) : (truthTest code).assigned = code.assigned := by
  simp [truthTest, Expr.assigned, Expr.nil]

@[simp] theorem assigned_acceptor (context : Context) : context.acceptor.assigned = [] := by
  unfold Context.acceptor
  split <;> rfl

variable {spared : String → Prop}

theorem free_exprs :
    Free spared (Expr.assignedAll codes) ↔ ∀ code ∈ codes, Free spared code.assigned := by
  induction codes with
  | nil => simp [Expr.assignedAll]
  | cons code rest ih => simp [Expr.assignedAll, ih]

theorem free_stmts :
    Free spared (Stmt.assignedAll stmts) ↔ ∀ stmt ∈ stmts, Free spared stmt.assigned := by
  induction stmts with
  | nil => simp [Stmt.assignedAll]
  | cons stmt rest ih => simp [Stmt.assignedAll, ih]

theorem free_cases {cases_ : List Case} :
    Free spared (Case.assignedAll cases_) ↔ ∀ case_ ∈ cases_, Free spared case_.assigned := by
  induction cases_ with
  | nil => simp [Case.assignedAll]
  | cons case_ rest ih => simp [Case.assignedAll, ih]

end Code

/-- A state of the compiler in which the given names are not going to be made, closures assign to no
variable that holds an acceptor, no script variable is known everywhere, and the literals made so
far assign to nothing. -/
structure Sparing (spared : String → Prop) (s : CompileState) : Prop where
  values : spared "values"
  spent : ∀ name, spared name → Spent s.counters name
  ordered : Ordered s.image.heap
  bounded : Bounded s.counters
  globals : ∀ (key : Nat) binding name, s.bindings.globals[key]? = some binding →
    binding.reference ≠ .host name
  literals : Stmt.assignedAll s.literals.initializers.toList = []

/-- How a step of the compiler ends that spares names. -/
inductive Sparingly (spared : String → Prop) (c : Counters) (P : α → Prop) :
    EStateM.Result CompileError CompileState α → Prop where
  | ok (leads : c.Leads s.counters) (sparing : Sparing spared s) (held : P a) :
      Sparingly spared c P (.ok a s)
  | error (leads : c.Leads s.counters) (sparing : Sparing spared s) :
      Sparingly spared c P (.error e s)

/-- A step of the compiler that spares names wherever it is taken. -/
def Spares (spared : String → Prop) (step : Compile α) (P : α → Prop) : Prop :=
  ∀ s, Sparing spared s → Sparingly spared s.counters P (step s)

/-- A step whose result does not matter here. -/
abbrev Plain (spared : String → Prop) (step : Compile α) : Prop :=
  Spares spared step fun _ => True

/-- Forms are compiled to code that assigns to none of the names. -/
def SparesForms (spared : String → Prop) (compile : FormCompiler) : Prop :=
  ∀ context form, Apart spared context.env →
    Spares spared (compile context form) fun code => Free spared code.assigned

variable {spared : String → Prop}

theorem Sparingly.after {c c' : Counters} {P : α → Prop}
    {result : EStateM.Result CompileError CompileState α} (ends : Sparingly spared c' P result)
    (leads : c.Leads c') :
    Sparingly spared c P result := by
  cases ends with
  | ok further sparing held => exact .ok (leads.trans further) sparing held
  | error further sparing => exact .error (leads.trans further) sparing

namespace Spares

variable {step : Compile α} {rest : α → Compile β} {P P' : α → Prop} {Q : β → Prop}

theorem bind (first : Spares spared step P) (second : ∀ a, P a → Spares spared (rest a) Q) :
    Spares spared (step >>= rest) Q := by
  intro s sparing
  change Sparingly spared s.counters Q (EStateM.bind step rest s)
  rw [EStateM.bind]
  have ends := first s sparing
  cases ended : step s with
  | ok a s' =>
      rw [ended] at ends
      cases ends with
      | ok leads sparing held => exact (second a held s' sparing).after leads
  | error e s' =>
      rw [ended] at ends
      cases ends with
      | error leads sparing => exact .error leads sparing

theorem pure {a : α} (held : P a) : Spares spared (Pure.pure a) P :=
  fun _ sparing => .ok (.refl _) sparing held

theorem throw (e : CompileError) : Spares spared (MonadExcept.throw e : Compile α) P :=
  fun _ sparing => .error (.refl _) sparing

theorem mono (spares : Spares spared step P) (weaker : ∀ a, P a → P' a) :
    Spares spared step P' := by
  intro s sparing
  have ends := spares s sparing
  generalize step s = result at ends ⊢
  cases ends with
  | ok leads sparing held => exact .ok leads sparing (weaker _ held)
  | error leads sparing => exact .error leads sparing

theorem plain (spares : Spares spared step P) : Plain spared step :=
  spares.mono fun _ _ => trivial

/-- A step that reads the state only. -/
theorem read (value : CompileState → α) (held : ∀ s, Sparing spared s → P (value s)) :
    Spares spared (fun s => .ok (value s) s) P :=
  fun s sparing => .ok (.refl _) sparing (held s sparing)

theorem mapM {f : γ → Compile α} (items : List γ)
    (each : ∀ item ∈ items, Spares spared (f item) P) :
    Spares spared (items.mapM f) fun results => ∀ result ∈ results, P result := by
  induction items with
  | nil =>
      rw [List.mapM_nil]
      exact .pure nofun
  | cons item rest ih =>
      rw [List.mapM_cons]
      refine .bind (each item List.mem_cons_self) fun result held => ?_
      refine .bind (ih fun other member => each other (List.mem_cons_of_mem _ member))
        fun results all => ?_
      refine .pure fun other member => ?_
      rcases List.mem_cons.mp member with rfl | member
      · exact held
      · exact all other member

theorem foldlM {f : α → γ → Compile α} (items : List γ) {a : α} (start : P a)
    (each : ∀ a item, P a → Spares spared (f a item) P) :
    Spares spared (items.foldlM f a) P := by
  induction items generalizing a with
  | nil => exact .pure start
  | cons item rest ih =>
      rw [List.foldlM_cons]
      exact .bind (each a item start) fun a held => ih held

theorem forM {f : γ → Compile PUnit} (items : List γ) (each : ∀ item, Plain spared (f item)) :
    Plain spared (items.forM f) := by
  induction items with
  | nil => exact .pure trivial
  | cons item rest ih =>
      change Plain spared (f item >>= fun _ => rest.forM f)
      exact .bind (each item) fun _ _ => ih

theorem anyM {f : γ → Compile Bool} (items : List γ) (each : ∀ item, Plain spared (f item)) :
    Plain spared (items.anyM f) := by
  induction items with
  | nil => exact .pure trivial
  | cons item rest ih =>
      rw [List.anyM]
      refine .bind (each item) fun found _ => ?_
      cases found with
      | true => exact .pure trivial
      | false => exact ih

theorem optionMapM {f : γ → Compile α} (item? : Option γ)
    (each : ∀ item, Spares spared (f item) P) :
    Spares spared (item?.mapM f) fun result? => ∀ result ∈ result?, P result := by
  cases item? with
  | none => exact .pure nofun
  | some item =>
      refine .bind (each item) fun result held => .pure ?_
      rintro _ ⟨⟩
      exact held

end Spares

section Reading

theorem Spares.heap : Plain spared Compiler.heap := .read _ fun _ _ => trivial

theorem Spares.symbols : Plain spared Compiler.symbols := .read _ fun _ _ => trivial

theorem Spares.get : Plain spared (get : Compile CompileState) := .read id fun _ _ => trivial

theorem Spares.describe (value : Value) : Plain spared (describe value) := .read _ fun _ _ => trivial

theorem Spares.symbolName (id : SymbolId) : Plain spared (symbolName id) := .read _ fun _ _ => trivial

theorem Spares.declared (binding : Binding) : Plain spared (declared binding) :=
  .read _ fun _ _ => trivial

theorem Spares.malformed (form : Value) (reason : String) {P : α → Prop} :
    Spares spared (malformed form reason) P :=
  .bind (.describe form) fun _ _ => .throw _

theorem Spares.expectArgs (form : Value) (args : List Value) (min : Nat) (max : Option Nat) :
    Plain spared (expectArgs form args min max) := by
  unfold Compiler.expectArgs
  cases max
  all_goals
    dsimp only
    split
    · exact .malformed _ _
    · exact .pure trivial

theorem Spares.symbolArg (form value : Value) (what : String) :
    Plain spared (symbolArg form value what) := by
  unfold Compiler.symbolArg
  split
  · exact .pure trivial
  · exact .malformed _ _

theorem Spares.listArg (form value : Value) (what : String) :
    Plain spared (listArg form value what) := by
  refine .bind .heap fun heap _ => ?_
  split
  · exact .pure trivial
  · exact .malformed _ _

theorem Spares.carOf? (value : Value) : Plain spared (carOf? value) := by
  unfold Compiler.carOf?
  split
  · exact .bind .heap fun _ _ => .pure trivial
  · exact .pure trivial

theorem Spares.restItems? (value : Value) : Plain spared (restItems? value) := by
  unfold Compiler.restItems?
  split
  · exact .bind .heap fun _ _ => .pure trivial
  · exact .pure trivial

end Reading

section Changes

variable {s : CompileState}

theorem Sparing.withImage (sparing : Sparing spared s) {image : Image}
    (ordered : Ordered image.heap) :
    Sparing spared { s with image } :=
  { sparing with ordered }

theorem Ordered.congr {heap heap' : Heap} (ordered : Ordered heap)
    (scopes : heap'.scopes = heap.scopes) (functions : heap'.functions = heap.functions) :
    Ordered heap' := by
  have scope : ∀ c, heap'.scope c = heap.scope c := fun c => by
    rw [Heap.scope, scopes, Heap.scope]
  have function : ∀ a, heap'.function a = heap.function a := fun a => by
    rw [Heap.function, functions, Heap.function]
  refine ⟨by rw [scopes]; exact ordered.global, fun c p parent => ?_,
    fun a params body c callable => ?_, fun n => by rw [function]; exact ordered.natives n⟩
  · rw [scope] at parent
    exact ordered.parents c p parent
  · rw [function] at callable
    rw [scopes]
    exact ordered.closures a params body c callable

theorem Spares.onSymbols (f : SymbolTable → α × SymbolTable) : Plain spared (onSymbols f) :=
  fun _ sparing => .ok (.refl _) (sparing.withImage sparing.ordered) trivial

theorem Spares.onHeap (f : Heap → α × Heap)
    (scopes : ∀ heap, (f heap).2.scopes = heap.scopes)
    (functions : ∀ heap, (f heap).2.functions = heap.functions) :
    Plain spared (onHeap f) :=
  fun _ sparing => .ok (.refl _)
    (sparing.withImage (Ordered.congr sparing.ordered (scopes _) (functions _))) trivial

theorem Spares.newCons (car cdr : Value) : Plain spared (newCons car cdr) :=
  .onHeap _ (fun _ => rfl) fun _ => rfl

theorem allocListWithTail_same (items : List Value) (tail : Value) (heap : Heap) :
    (heap.allocListWithTail items tail).2.scopes = heap.scopes ∧
      (heap.allocListWithTail items tail).2.functions = heap.functions := by
  induction items generalizing heap with
  | nil => exact ⟨rfl, rfl⟩
  | cons item rest ih => exact ih heap

theorem Spares.newListWithTail (items : List Value) (tail : Value) :
    Plain spared (newListWithTail items tail) :=
  .onHeap _ (fun heap => (allocListWithTail_same items tail heap).1)
    fun heap => (allocListWithTail_same items tail heap).2

theorem Spares.newList (items : List Value) : Plain spared (newList items) :=
  Spares.newListWithTail items .nil

theorem Spares.onCounters {f : Counters → α × Counters} {P : α → Prop}
    (goes : ∀ c, Bounded c → (f c).2 ≠ c →
      c.Leads (f c).2 ∧ Bounded (f c).2 ∧ ((∀ name, spared name → Spent c name) → P (f c).1)) :
    Spares spared (Compiler.onCounters f) P := by
  intro s sparing
  unfold Compiler.onCounters
  simp only
  split
  · exact .error (.refl _) sparing
  · rename_i changed
    obtain ⟨leads, bounded, held⟩ := goes s.counters sparing.bounded changed
    exact .ok leads { sparing with
      bounded
      spent := fun name member => (sparing.spent name member).later leads } (held sparing.spent)

/-- A new variable is not one that is spared. -/
theorem Spares.freshVariable (hint : String) :
    Spares spared (freshVariable hint) fun name => ¬ spared name := by
  refine .onCounters fun c bounded goes => ?_
  have later : c.vars < next c.vars := lt_next bounded.vars fun same =>
    goes (congrArg (fun n => { c with vars := n }) same)
  refine ⟨⟨Nat.le_of_lt later, Nat.le_refl _, Nat.le_refl _, Nat.le_refl _⟩,
    ⟨next_le _, bounded.literals, bounded.blocks, bounded.tagbodies⟩, fun spent member => ?_⟩
  have made : Made c { c with vars := next c.vars } _ :=
    .variable_ hint (next c.vars) later (Nat.le_refl _)
  exact (spent _ member).not_made made

theorem Spares.freshVariableFor (id : SymbolId) :
    Spares spared (freshVariableFor id) fun name => ¬ spared name :=
  .bind (.symbolName id) fun _ _ => .freshVariable _

theorem Spares.freshLiteral : Plain spared (Compiler.onCounters Counters.freshLiteral) :=
  .onCounters fun _ bounded _ =>
    ⟨⟨Nat.le_refl _, le_next bounded.literals, Nat.le_refl _, Nat.le_refl _⟩,
      ⟨bounded.vars, next_le _, bounded.blocks, bounded.tagbodies⟩, fun _ => trivial⟩

theorem Spares.freshBlock : Plain spared (Compiler.onCounters Counters.freshBlock) :=
  .onCounters fun _ bounded _ =>
    ⟨⟨Nat.le_refl _, Nat.le_refl _, le_next bounded.blocks, Nat.le_refl _⟩,
      ⟨bounded.vars, bounded.literals, next_le _, bounded.tagbodies⟩, fun _ => trivial⟩

theorem Spares.freshTagbody : Plain spared (Compiler.onCounters Counters.freshTagbody) :=
  .onCounters fun _ bounded _ =>
    ⟨⟨Nat.le_refl _, Nat.le_refl _, Nat.le_refl _, le_next bounded.tagbodies⟩,
      ⟨bounded.vars, bounded.literals, bounded.blocks, next_le _⟩, fun _ => trivial⟩

theorem Spares.freshTag : Plain spared (Compiler.onCounters Counters.freshTag) :=
  .onCounters fun _ bounded _ =>
    ⟨⟨Nat.le_refl _, Nat.le_refl _, Nat.le_refl _, Nat.le_refl _⟩,
      ⟨bounded.vars, bounded.literals, bounded.blocks, bounded.tagbodies⟩, fun _ => trivial⟩

theorem Spares.freshUnit : Plain spared (Compiler.onCounters Counters.freshUnit) :=
  .onCounters fun _ bounded _ =>
    ⟨⟨Nat.le_refl _, Nat.le_refl _, Nat.le_refl _, Nat.le_refl _⟩,
      ⟨bounded.vars, bounded.literals, bounded.blocks, bounded.tagbodies⟩, fun _ => trivial⟩

end Changes

section Bindings

/-- The bindings have no script variable among the global ones. -/
def NoGlobalHost (bindings : Bindings) : Prop :=
  ∀ (key : Nat) binding name, bindings.globals[key]? = some binding →
    binding.reference ≠ .host name

theorem Spares.onBindings {f : Bindings → α × Bindings} {P : α → Prop}
    (keeps : ∀ bindings, NoGlobalHost bindings →
      NoGlobalHost (f bindings).2 ∧ P (f bindings).1) :
    Spares spared (Compiler.onBindings f) P :=
  fun s sparing => .ok (.refl _) { sparing with globals := (keeps s.bindings sparing.globals).1 }
    (keeps s.bindings sparing.globals).2

theorem Spares.modifyBindings {f : Bindings → Bindings}
    (same : ∀ bindings, (f bindings).globals = bindings.globals) :
    Plain spared (Compiler.modifyBindings f) :=
  fun s sparing => .ok (.refl _) { sparing with
    globals := fun key binding name found => by
      rw [show ({ s with bindings := f s.bindings } : CompileState).bindings.globals =
        s.bindings.globals from same _] at found
      exact sparing.globals key binding name found } trivial

theorem Spares.markUsed (binding : Binding) : Plain spared (markUsed binding) :=
  .modifyBindings fun _ => rfl

theorem Spares.newBinding (name : Value) (space : Namespace) (reference : Reference) :
    Spares spared (newBinding name space reference) fun binding =>
      binding.reference = reference :=
  .onBindings fun _ none_ => ⟨none_, rfl⟩

theorem NoGlobalHost.put {bindings : Bindings} (none_ : NoGlobalHost bindings) {binding : Binding}
    (slot : ∀ name, binding.reference ≠ .host name) (id : SymbolId) (space : Namespace) :
    NoGlobalHost (bindings.putGlobal id space binding) := by
  intro key other name found
  simp only [Bindings.putGlobal, Std.TreeMap.getElem?_insert] at found
  split at found
  · obtain rfl := Option.some.inj found
    exact slot name
  · exact none_ key other name found

theorem lookupGlobal_noHost {bindings : Bindings} (none_ : NoGlobalHost bindings) (id : SymbolId)
    (space : Namespace) :
    NoGlobalHost (bindings.lookupGlobal id space).2 ∧
      ∀ name, (bindings.lookupGlobal id space).1.reference ≠ .host name := by
  unfold Bindings.lookupGlobal
  split
  · rename_i binding found
    exact ⟨none_, fun name => none_ _ binding name found⟩
  · have slot : ∀ name, Reference.slot ≠ .host name := nofun
    exact ⟨NoGlobalHost.put none_ slot id space, slot⟩

theorem Spares.lookupGlobal (id : SymbolId) (space : Namespace) :
    Plain spared (Compiler.onBindings (·.lookupGlobal id space)) :=
  .onBindings fun _ none_ => ⟨(lookupGlobal_noHost none_ id space).1, trivial⟩

theorem Spares.define (id : SymbolId) (space : Namespace) {reference : Reference}
    (slot : ∀ name, reference ≠ .host name) :
    Plain spared (Compiler.onBindings (·.define id space reference)) := by
  refine .onBindings fun bindings none_ => ⟨?_, trivial⟩
  unfold Bindings.define
  exact NoGlobalHost.put none_ slot id space

/-- What a name means is known where it stands, if it is a script variable. -/
theorem Spares.resolve (context : Context) (name : Value) (space : Namespace) :
    Spares spared (resolve context name space) fun binding? => ∀ binding ∈ binding?,
      ∀ host, binding.reference = .host host → context.env.Hosts host := by
  refine .onBindings fun bindings none_ => ?_
  unfold Bindings.resolve
  split
  · rename_i binding found
    refine ⟨none_, ?_⟩
    rintro _ ⟨⟩ host isHost
    exact ⟨binding, List.mem_of_find?_eq_some found, isHost⟩
  · split
    · exact ⟨(lookupGlobal_noHost none_ _ _).1, by
        rintro _ ⟨⟩ host isHost
        exact absurd isHost ((lookupGlobal_noHost none_ _ _).2 host)⟩
    · exact ⟨(lookupGlobal_noHost none_ _ _).1, by
        rintro _ ⟨⟩ host isHost
        exact absurd isHost ((lookupGlobal_noHost none_ _ _).2 host)⟩
    · exact ⟨none_, fun _ member => absurd member (Option.not_mem_none _)⟩

end Bindings

section Literals

/-- A step that gives code that assigns to nothing. -/
abbrev GivesLiteral (spared : String → Prop) (step : Compile Expr) : Prop :=
  Spares spared step fun code => code.assigned = []

theorem hoist_spares (key : LiteralKey) {make : Compile Expr} (made : GivesLiteral spared make) :
    GivesLiteral spared (hoist key make) := by
  refine .bind .get fun s _ => ?_
  split
  · exact .pure rfl
  · refine .bind made fun value empty => .bind .freshLiteral fun name _ => ?_
    refine .bind (P := fun _ => True) (fun s sparing => .ok (.refl _) { sparing with
      literals := ?_ } trivial) fun _ _ => .pure rfl
    have before := sparing.literals
    simp only [Array.toList_push, Stmt.assignedAll_append, before, List.nil_append]
    simp [Stmt.assignedAll, Stmt.assigned, empty]

theorem symbolLiteral_spares (id : SymbolId) : GivesLiteral spared (symbolLiteral id) := by
  unfold symbolLiteral
  split
  · exact .pure rfl
  · split
    · exact .pure rfl
    · refine hoist_spares _ (.bind .symbols fun symbols _ => .pure ?_)
      unfold symbolInitializer
      simp only
      split <;> rfl

theorem assignedAll_eq_nil {codes : List Expr} (empty : ∀ code ∈ codes, code.assigned = []) :
    Expr.assignedAll codes = [] := by
  induction codes with
  | nil => rfl
  | cons code rest ih =>
      rw [Expr.assignedAll, empty code List.mem_cons_self,
        ih fun other member => empty other (List.mem_cons_of_mem _ member)]
      rfl

theorem literalWithin_spares (depth : Nat) (value : Value) :
    GivesLiteral spared (literalWithin depth value) := by
  induction depth generalizing value with
  | zero => exact .throw _
  | succ depth ih =>
      cases value with
      | nil => exact .pure rfl
      | number n => exact .pure rfl
      | string address text => exact .pure rfl
      | symbol id => exact symbolLiteral_spares id
      | character c => exact hoist_spares _ (.pure (assigned_callRoutine _))
      | cons address =>
          rw [literalWithin]
          refine hoist_spares _ (.bind .heap fun heap _ => ?_)
          refine .bind (ih _) fun car emptyCar => .bind (ih _) fun cdr emptyCdr => .pure ?_
          simp [Expr.assignedAll, emptyCar, emptyCdr]
      | vector address =>
          rw [literalWithin]
          refine hoist_spares _ (.bind .heap fun heap _ => ?_)
          refine .bind (.mapM _ fun item _ => ih item) fun items empty => .pure ?_
          rw [assigned_callPrimitive, assignedAll_eq_nil empty]
      | _ =>
          simp only [literalWithin]
          exact .bind (.describe _) fun _ _ => .throw _

theorem literal_spares (value : Value) : GivesLiteral spared (literal value) :=
  .bind .heap fun _ _ => literalWithin_spares _ value

theorem GivesLiteral.free {step : Compile Expr} (gives : GivesLiteral spared step) :
    Spares spared step fun code => Free spared code.assigned :=
  gives.mono fun code empty => by rw [empty]; exact free_nil

end Literals

section Units

theorem Spares.inFreshUnit {step : Compile α} {P : α → Prop} (spares : Spares spared step P) :
    Spares spared (inFreshUnit step) fun result =>
      P result.1 ∧ Stmt.assignedAll result.2.initializers.toList = [] := by
  intro s sparing
  have ends := spares { s with literals := {} } { sparing with literals := rfl }
  unfold Compiler.inFreshUnit
  simp only
  cases ended : step { s with literals := {} } with
  | ok a s' =>
      rw [ended] at ends
      cases ends with
      | ok leads sparing' held =>
          exact .ok leads { sparing' with literals := sparing.literals } ⟨held, sparing'.literals⟩
  | error e s' =>
      rw [ended] at ends
      cases ends with
      | error leads sparing' => exact .error leads { sparing' with literals := sparing.literals }

theorem compileToplevel_spares {compile : FormCompiler} (forms : SparesForms spared compile)
    (form : Value) :
    Spares spared (compileToplevel compile form) fun program =>
      Free spared (Stmt.assignedAll program.body) := by
  refine .bind .freshUnit fun _ _ => ?_
  refine .bind (.inFreshUnit (forms .toplevel form apart_nil)) fun result held => .pure ?_
  obtain ⟨free, empty⟩ := held
  simp [unitProgram, Expr.inPlace, Expr.routine, Stmt.assignedAll, Stmt.assigned, Expr.assigned,
    Expr.assignedAll, empty, free]

theorem Spares.onMachine {run : Run α} {explain : RuntimeError → CompileError}
    (orders : ∀ i : Image, Ordered i.heap → Ordered (imageOf (run i)).heap) :
    Plain spared (onMachine run explain) := by
  intro s sparing
  have ordered := orders s.image sparing.ordered
  unfold Compiler.onMachine
  cases ended : run s.image with
  | ok a image =>
      rw [ended] at ordered
      exact .ok (.refl _) (sparing.withImage ordered) trivial
  | error interrupt image =>
      rw [ended] at ordered
      exact .error (.refl _) (sparing.withImage ordered)

theorem evalNow_spares {compile : FormCompiler} (forms : SparesForms spared compile)
    (form : Value) :
    Plain spared (evalNow compile form) := by
  intro s sparing
  refine Spares.bind (compileToplevel_spares forms form) (fun program free => ?_) s sparing
  refine .bind (.onMachine fun i ordered => ordered.run fun member =>
    free _ member sparing.values) fun _ _ => ?_
  exact .bind .get fun _ _ => .pure trivial

theorem callExpander_spares (name : SymbolId) (expander form : Value) :
    Plain spared (callExpander name expander form) := by
  refine .bind (.restItems? form) fun args? _ => ?_
  split
  · exact .malformed _ _
  · refine .bind (.symbolName name) fun text _ => ?_
    exact .onMachine fun i ordered => ordered.call _ _

end Units

end LispScript.Compiler
