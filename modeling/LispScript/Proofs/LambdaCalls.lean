import LispScript.Proofs.ParameterPassing

/-!
Calls of lambda expressions. What a lambda expression is compiled to refuses arguments as its lambda
list says; where it takes them, its body runs in a scope whose variables have got what the lambda list
says.
-/

namespace LispScript.Compiler

open Script Machine Discipline

variable {s s₁ s₂ t u : CompileState} {env : Environment} {context : Context} {list : LambdaList}

section Reading

/-- Only symbols may be new. -/
structure Interns (s t : CompileState) : Prop where
  symbols : ∃ symbols, t = { s with image := { s.image with symbols } }

instance : Interning Interns where
  refl _ := ⟨_, rfl⟩
  trans := by
    rintro _ _ _ ⟨_, rfl⟩ ⟨_, rfl⟩
    exact ⟨_, rfl⟩
  keyword _ _ := ⟨_, rfl⟩

theorem Ready.interns (ready : Ready s env) (interns : Interns s t) : Ready t env := by
  obtain ⟨_, rfl⟩ := interns
  exact ⟨ready.placed, ready.holds, ready.bounded, ready.named⟩

theorem IsLexical.interns {specials : List SymbolId} {id : SymbolId} (lexical : IsLexical specials s id)
    (interns : Interns s t) : IsLexical specials t id := by
  obtain ⟨_, rfl⟩ := interns
  exact lexical

/-- Keyword parameters stand in a section of keyword parameters. -/
def GivesKeyed (step : Compile LambdaList) : Prop :=
  ∀ s list t, step s = .ok list t → list.keys ≠ [] → list.hasKeys = true

theorem badLambdaList_keyed (value : Value) (reason : String) :
    GivesKeyed (badLambdaList value reason) := by
  intro s list t ok
  obtain ⟨_, _, -, thrown⟩ := ok_of_bind ok
  cases thrown

theorem bind_keyed {α : Type} {step : Compile α} {next : α → Compile LambdaList}
    (keyed : ∀ a, GivesKeyed (next a)) : GivesKeyed (step >>= next) := by
  intro s list t ok
  obtain ⟨a, s₁, -, ok⟩ := ok_of_bind ok
  exact keyed a s₁ list t ok

theorem parseItems_keyed {whole : Value} {current : Section} {parsed : LambdaList}
    (items : List Value) (opened : current = .key → parsed.hasKeys = true)
    (keyed : parsed.keys ≠ [] → parsed.hasKeys = true) :
    GivesKeyed (parseItems whole current parsed items) := by
  induction items generalizing current parsed with
  | nil =>
      rw [parseItems]
      split
      · exact badLambdaList_keyed _ _
      · rintro s _ _ ⟨⟩
        exact keyed
  | cons item items ih =>
      unfold parseItems
      dsimp only
      split
      · split
        · split
          · refine ih (fun same => ?_) (fun some_ => ?_)
            · simp [same]
            · simp [keyed some_]
          · exact badLambdaList_keyed _ _
        · split
          · split
            · exact ih opened keyed
            · exact badLambdaList_keyed _ _
          · exact badLambdaList_keyed _ _
      · split
        · split
          · exact ih (by simp) keyed
          · exact badLambdaList_keyed _ _
        · refine bind_keyed fun heap => ?_
          split
          · exact ih (by simp) keyed
          · exact badLambdaList_keyed _ _
        · split
          · exact ih (by simp) keyed
          · exact badLambdaList_keyed _ _
        · refine bind_keyed fun param? => ?_
          split
          · exact ih opened fun _ => opened rfl
          · exact badLambdaList_keyed _ _
        · exact badLambdaList_keyed _ _

theorem parseLambdaList_keyed (value : Value) : GivesKeyed (parseLambdaList value) := by
  refine bind_keyed fun heap => ?_
  split
  · exact parseItems_keyed _ (by simp) (by simp)
  · exact badLambdaList_keyed _ _

end Reading

section Parts

/-- A symbol that may be bound is not `NIL`. -/
theorem checkBindable_ok (ready : Ready s context.env) {id : SymbolId}
    (ok : checkBindable context id s = .ok () t) :
    GoesOn context.env s t ∧ id ≠ SymbolId.nil := by
  unfold checkBindable isConstantSymbol at ok
  obtain ⟨constant, s₁, asked, ok⟩ := ok_of_bind ok
  obtain ⟨symbols, s₂, same, asked⟩ := ok_of_bind asked
  cases same
  split at asked
  · cases asked
    obtain ⟨_, _, -, thrown⟩ := ok_of_bind ok
    cases thrown
  · rename_i variable_
    obtain ⟨binding, bindings, resolved, gains, -⟩ :=
      Bindings.resolve_ofSymbol ready.placed ready.holds id (.inl rfl : Namespace.vars = .vars ∨ _)
    have found : Compiler.resolve context (.ofSymbol id) .vars s = .ok (some binding)
        { s with bindings } := by
      unfold Compiler.resolve onBindings
      dsimp only
      rw [resolved]
    rw [bind_ended found] at asked
    cases asked
    split at ok
    · obtain ⟨_, _, -, thrown⟩ := ok_of_bind ok
      cases thrown
    · cases ok
      exact ⟨ready.withBindings gains, fun isNil => variable_ (by simp [isNil])⟩

theorem checkBindables_ok {ids : List SymbolId} (ready : Ready s context.env)
    (ok : ids.forM (checkBindable context) s = .ok () t) :
    GoesOn context.env s t ∧ ∀ id ∈ ids, id ≠ SymbolId.nil := by
  induction ids generalizing s with
  | nil =>
      cases ok
      exact ⟨ready.stays, nofun⟩
  | cons id ids ih =>
      obtain ⟨_, s₁, first, ok⟩ := ok_of_bind ok
      obtain ⟨goes₁, notNil⟩ := checkBindable_ok ready first
      obtain ⟨goes₂, others⟩ := ih goes₁.ready ok
      exact ⟨goes₁.trans goes₂, List.forall_mem_cons.mpr ⟨notNil, others⟩⟩

/-- A state of the compiler with some more conses. -/
structure MakesConses (s t : CompileState) : Prop where
  heap : ∃ heap, t = { s with image := { s.image with heap } } ∧ s.image.heap.Keeps heap ∧
    ∀ (a : Nat) cell, s.image.heap.cells[a]? = some cell → heap.cells[a]? = some cell

theorem MakesConses.refl (s : CompileState) : MakesConses s s :=
  ⟨_, rfl, .refl _, fun _ _ held => held⟩

theorem MakesConses.trans (first : MakesConses s t) (second : MakesConses t u) : MakesConses s u := by
  obtain ⟨heap, rfl, keeps, held⟩ := first
  obtain ⟨heap', rfl, keeps', held'⟩ := second
  exact ⟨heap', rfl, keeps.trans keeps', fun a cell there => held' a cell (held a cell there)⟩

theorem makesConses_newListWithTail {items : List Value} {tail value : Value}
    (ok : newListWithTail items tail s = .ok value t) : MakesConses s t := by
  cases ok
  induction items with
  | nil => exact .refl s
  | cons item items ih =>
      refine ih.trans ⟨_, rfl, Heap.keeps_allocCell .., fun a cell held => ?_⟩
      obtain ⟨bound, -⟩ := Array.getElem?_eq_some_iff.mp held
      exact (Array.getElem?_push_lt bound).trans ((Array.getElem?_eq_getElem bound).symm.trans held)

theorem Ready.makesConses (ready : Ready s env) (makes : MakesConses s t) : Ready t env := by
  obtain ⟨_, rfl, -⟩ := makes
  exact ⟨ready.placed, ready.holds, ready.bounded, ready.named⟩

theorem IsLexical.makesConses {specials : List SymbolId} {id : SymbolId}
    (lexical : IsLexical specials s id) (makes : MakesConses s t) : IsLexical specials t id := by
  obtain ⟨_, rfl, -⟩ := makes
  exact lexical

theorem MakesConses.reads (makes : MakesConses s t) {form : Value} {read : DefaultForm}
    (reads : defaultForm? s.image form = some read) : defaultForm? t.image form = some read := by
  obtain ⟨heap, rfl, -, kept⟩ := makes
  have symbols : ({ s.image with heap } : Image).symbols = s.image.symbols := rfl
  exact defaultForm?_keeps kept symbols reads

theorem MakesConses.isSimple (makes : MakesConses s t) {left : List SymbolId} {form : Value}
    (simple : IsSimple s.image left form) : IsSimple t.image left form := by
  obtain ⟨read, reads, within⟩ := simple
  exact ⟨read, makes.reads reads, within⟩

theorem MakesConses.hasSimpleDefaults (makes : MakesConses s t)
    (simple : list.HasSimpleDefaults s.image) : list.HasSimpleDefaults t.image :=
  ⟨fun before param after same => makes.isSimple (simple.optional before param after same),
    fun before param after same => makes.isSimple (simple.key before param after same)⟩

/-- The forms of a function's body. Around those of a function with a name stands a block of that
name. -/
def bodyForms (name : Option SymbolId) (forms : List Value) : Compile (List Value) :=
  match name with
  | none => return forms
  | some name => do
      let forms ← newList forms
      return [← newListWithTail [.symbol SpecialForm.block.symbol, .ofSymbol name] forms]

theorem bodyForms_ok {name : Option SymbolId} {forms items : List Value}
    (ok : bodyForms name forms s = .ok items t) : MakesConses s t := by
  cases name with
  | none =>
      cases ok
      exact .refl s
  | some name =>
      obtain ⟨inner, s₁, first, ok⟩ := ok_of_bind ok
      obtain ⟨form, s₂, second, ended⟩ := ok_of_bind ok
      cases ended
      have made : newListWithTail forms .nil s = .ok inner s₁ := first
      exact (makesConses_newListWithTail made).trans (makesConses_newListWithTail second)

variable {depth : Nat} {lambdaList : Value} {body : List Value} {name : Option SymbolId}
  {code : Expr} {parsed : Body}

theorem withProperties_ok {function : Expr} {properties : List (String × String)}
    (ok : withProperties function properties s = .ok code t) :
    ∃ holder, holder ∉ reservedNames ∧
      code = if properties.isEmpty then function else propertiesCode holder function properties := by
  unfold withProperties at ok
  split at ok
  · rename_i none_
    cases ok
    exact ⟨"", by decide, (if_pos none_).symm⟩
  · rename_i some_
    obtain ⟨holder, s₁, fresh, ended⟩ := ok_of_bind ok
    cases ended
    refine ⟨holder, ?_, (if_neg some_).symm⟩
    unfold freshVariable onCounters at fresh
    dsimp only at fresh
    split at fresh
    · cases fresh
    · cases fresh
      exact numbered_unreserved _ _

/-- The steps that a lambda expression is compiled in, once its lambda list and its declarations have
been read. At `u` its body is compiled. -/
def CompilesFunction (depth : Nat) (context : Context) (list : LambdaList) (parsed : Body)
    (name : Option SymbolId) (s : CompileState) (code : Expr) (head : Head) (hosts : List String)
    (env : Environment) (u : CompileState) (stmts : List Stmt) : Prop :=
  ∃ s₁ s₂ s₃ s₄ forms holder properties,
    list.boundVars.forM (checkBindable context) s = .ok () s₁ ∧
    bodyForms name parsed.forms s₁ = .ok forms s₂ ∧
    bindParameters (compileWithin depth) context parsed.declarations.specials list s₂ =
      .ok (head, hosts) s₃ ∧
    applyFreeDeclarations head.env parsed.declarations list.boundVars s₃ = .ok env u ∧
    compileBody (compileWithin depth) { env, manyValues := true } forms u = .ok stmts s₄ ∧
    holder ∉ reservedNames ∧
    code = functionCode holder hosts (head.prologue.finish stmts) properties

/-- A function gets its name and its docstring, if it has any. -/
def nameFunction (name : Option SymbolId) (parsed : Body) (hosts : List String) (block : List Stmt) :
    Compile Expr := do
  let fname ← name.mapM symbolName
  withProperties (.function ("values" :: hosts) block) (fname.toList.map (("fname", ·)) ++
    parsed.docstring.toList.map (("docstring", ·)))

/-- The steps that a lambda expression is compiled in. -/
theorem compileLambda_steps
    (ok : compileLambda (compileWithin depth) context lambdaList body name s = .ok code t) :
    ∃ list s₁ parsed s₂, parseLambdaList lambdaList s = .ok list s₁ ∧
      parseBody body true s₁ = .ok parsed s₂ ∧
      ∃ s₃ forms s₄ head hosts s₅ env u stmts s₆ holder properties,
        list.boundVars.forM (checkBindable context) s₂ = .ok () s₃ ∧
        bodyForms name parsed.forms s₃ = .ok forms s₄ ∧
        bindParameters (compileWithin depth) context parsed.declarations.specials list s₄ =
          .ok (head, hosts) s₅ ∧
        applyFreeDeclarations head.env parsed.declarations list.boundVars s₅ = .ok env u ∧
        compileBody (compileWithin depth) { env, manyValues := true } forms u = .ok stmts s₆ ∧
        holder ∉ reservedNames ∧
        code = functionCode holder hosts (head.prologue.finish stmts) properties ∧ Later s₆ t ∧
        nameFunction name parsed hosts (head.prologue.finish stmts) s₆ = .ok code t := by
  unfold compileLambda at ok
  obtain ⟨list, s₁, read, ok⟩ := ok_of_bind ok
  obtain ⟨parsed, s₂, bodyRead, ok⟩ := ok_of_bind ok
  obtain ⟨_, s₃, checked, ok⟩ := ok_of_bind ok
  refine ⟨list, s₁, parsed, s₂, read, bodyRead, s₃, ?_⟩
  have rest : ∀ forms s₄, bodyForms name parsed.forms s₃ = .ok forms s₄ → (do
        let bound ← bindParameters (compileWithin depth) context parsed.declarations.specials list
        let env ← applyFreeDeclarations bound.1.env parsed.declarations list.boundVars
        let stmts ← compileBody (compileWithin depth) { env, manyValues := true } forms
        let function := Expr.function ("values" :: bound.2) (bound.1.prologue.finish stmts)
        let fname ← name.mapM symbolName
        withProperties function (fname.toList.map (("fname", ·)) ++
          parsed.docstring.toList.map (("docstring", ·)))) s₄ = .ok code t →
      ∃ forms s₄ head hosts s₅ env u stmts s₆ holder properties,
        list.boundVars.forM (checkBindable context) s₂ = .ok () s₃ ∧
        bodyForms name parsed.forms s₃ = .ok forms s₄ ∧
        bindParameters (compileWithin depth) context parsed.declarations.specials list s₄ =
          .ok (head, hosts) s₅ ∧
        applyFreeDeclarations head.env parsed.declarations list.boundVars s₅ = .ok env u ∧
        compileBody (compileWithin depth) { env, manyValues := true } forms u = .ok stmts s₆ ∧
        holder ∉ reservedNames ∧
        code = functionCode holder hosts (head.prologue.finish stmts) properties ∧ Later s₆ t ∧
        nameFunction name parsed hosts (head.prologue.finish stmts) s₆ = .ok code t := by
    intro forms s₄ made ok
    obtain ⟨⟨head, hosts⟩, s₅, bound, ok⟩ := ok_of_bind ok
    obtain ⟨env, u, applied, ok⟩ := ok_of_bind ok
    obtain ⟨stmts, s₆, compiled, ok⟩ := ok_of_bind ok
    obtain ⟨fname, s₇, named, ok⟩ := ok_of_bind ok
    obtain ⟨holder, unreserved, same⟩ := withProperties_ok ok
    refine ⟨forms, s₄, head, hosts, s₅, env, u, stmts, s₆, holder, _, checked, made, bound, applied,
      compiled, unreserved, same, fun R _ => ?_, (bind_ended named).trans ok⟩
    have text : R s₆ s₇ := (Obeys.optionMapM _ fun _ => .symbolName _).ended named
    exact Interning.trans text ((withProperties_obeys _ _).ended ok)
  cases name with
  | none => exact rest _ s₃ rfl ok
  | some name =>
      obtain ⟨inner, s', first, ok⟩ := ok_of_bind ok
      obtain ⟨form, s'', second, ok⟩ := ok_of_bind ok
      refine rest [form] s'' ?_ ok
      rw [bodyForms, bind_ended first, bind_ended second]
      rfl

theorem compileLambda_parts
    (ok : compileLambda (compileWithin depth) context lambdaList body name s = .ok code t)
    (read : parseLambdaList lambdaList s = .ok list s₁)
    (bodyRead : parseBody body true s₁ = .ok parsed s₂) :
    ∃ head hosts env u stmts,
      CompilesFunction depth context list parsed name s₂ code head hosts env u stmts ∧ Later u t := by
  obtain ⟨_, _, _, _, read', bodyRead', s₃, forms, s₄, head, hosts, s₅, env, u, stmts, s₆, holder,
    properties, checked, made, bound, applied, compiled, unreserved, same, later, -⟩ :=
    compileLambda_steps ok
  cases read.symm.trans read'
  cases bodyRead.symm.trans bodyRead'
  refine ⟨head, hosts, env, u, stmts, ⟨s₃, s₄, s₅, s₆, forms, holder, properties, checked, made, bound,
    applied, compiled, unreserved, same⟩, fun R _ => ?_⟩
  exact Interning.trans ((compileBody_obeys (compileWithin_obeys depth) _ _).ended compiled) (later R)

end Parts

section Activations

variable {i : Image} {c scope : Nat} {params hosts : List String} {args data : List Value}
  {acceptor : Value} {made : LiteralKey → Value}

/-- The image in which a scope for an activation is open. -/
def activationImage (i : Image) (scope : Nat) (params : List String) (args : List Value) : Image :=
  { i with heap := ((i.heap.allocVector args.toArray).2.allocScope
      ⟨activationVariables params args (.vector i.heap.vectors.size), some scope, true⟩).2 }

theorem openActivation_ok (few : args.length < ampleArguments) :
    openActivation scope params args i =
      .ok i.heap.scopes.size (activationImage i scope params args) := by
  rw [openActivation, if_neg (Nat.not_le.mpr few)]
  rfl

/-- A call of a closure runs its body in a new scope. -/
theorem callWithin_closure {fn steps : Nat} {code : List Stmt}
    (callable : (i.heap.function fn).callable = .closure params code scope)
    (few : args.length < ampleArguments) :
    callWithin (steps + 1) (.function fn) args i = counted (fun k =>
      (execBlock (callWithin steps) steps k.heap.scopes.size code >>= resultOf)
        (activationImage k scope params args)) i := by
  rw [callWithin_function, callable]
  have opened : (fun k => (execBlock (callWithin steps) steps k.heap.scopes.size code >>= resultOf)
      (activationImage k scope params args)) = (do
        let inner ← openActivation scope params args
        resultOf (← execBlock (callWithin steps) steps inner code) : Run Value) := by
    funext k
    rw [bind_of_ok (openActivation_ok few)]
  rw [opened]

theorem activationImage_size (i : Image) (scope : Nat) (params : List String) (args : List Value) :
    (activationImage i scope params args).heap.scopes.size = i.heap.scopes.size + 1 :=
  Array.size_push ..

theorem activationImage_scope (i : Image) (scope : Nat) (params : List String) (args : List Value) :
    (activationImage i scope params args).heap.scope i.heap.scopes.size =
      ⟨activationVariables params args (.vector i.heap.vectors.size), some scope, true⟩ := by
  change (i.heap.scopes.push _).getD i.heap.scopes.size default = _
  rw [getD_push, if_pos rfl]

theorem activationImage_steady {watched : Nat → String → Prop} (valid : Valid watched i)
    (bound : scope < i.heap.scopes.size) (params : List String) (args : List Value) :
    Steady watched i (activationImage i scope params args) := by
  have first := (IsQuiet.allocVector args.toArray).steady valid
  exact first.trans (Steady.allocScope first.valid rfl bound)

/-- An open activation changes nothing in the scopes that were there. -/
theorem lookupVariable?_beforeActivation (ordered : Ordered i.heap) (around : scope < i.heap.scopes.size)
    (bound : c < i.heap.scopes.size) (name : String) :
    (activationImage i scope params args).heap.lookupVariable? c name =
      i.heap.lookupVariable? c name := by
  have opened := activationImage_steady ordered.valid around params args
  have size := activationImage_size i scope params args
  refine findVariable_congr ordered (fun d le => opened.parents d (by omega)) (fun d le => ?_)
    (by omega) bound
  change (((i.heap.scopes.push _).getD d default).vars[name]?) = _
  rw [getD_push, if_neg (by omega)]
  rfl

/-- What an activation does not hide means what it means in the scope around it. -/
theorem lookupVariable?_activationImage (ordered : Ordered i.heap)
    (bound : scope < i.heap.scopes.size) {name : String} (hidden : name ∉ params)
    (name_ne : name ≠ "arguments") :
    (activationImage i scope params args).heap.lookupVariable? i.heap.scopes.size name =
      i.heap.lookupVariable? scope name := by
  have opened := activationImage_steady ordered.valid bound params args
  have size := activationImage_size i scope params args
  have own := activationImage_scope i scope params args
  rw [lookupVariable?_outer opened.ordered (by omega) (by rw [own])
    (by rw [own]; exact activationVariables_of_notMem name_ne hidden _)]
  exact lookupVariable?_beforeActivation ordered bound bound name

theorem params_nodup {c c' : Counters} {n : Nat} (new : Discipline.NewHosts c c' n hosts) :
    ("values" :: hosts).Nodup :=
  List.nodup_cons.mpr ⟨fun member => (new.made _ member).unreserved (by decide), new.nodup⟩

/-- The parameters of an activation hold its arguments. -/
theorem own?_activationImage {c c' : Counters} {n : Nat} (new : Discipline.NewHosts c c' n hosts)
    {k : Nat} {host : String} (found : hosts[k]? = some host) :
    (activationImage i scope ("values" :: hosts) (acceptor :: data)).own? i.heap.scopes.size host =
      some (argument data k) := by
  have ne := (new.made host (List.mem_of_getElem? found)).ne_arguments
  have held : (activationVariables ("values" :: hosts) (acceptor :: data)
      (.vector i.heap.vectors.size))[host]? = some (argument (acceptor :: data) (k + 1)) := by
    rw [activationVariables_of_ne ne]
    exact parameterVariables_getElem (params_nodup new) found
  rw [Image.own?, activationImage_scope, held]
  rfl

/-- An activation of a function whose parameters have new names is in the reach of the literals that
are in the reach of the function. -/
theorem entered_activation {c c' : Counters} {n : Nat} (new : Discipline.NewHosts c c' n hosts)
    (ordered : Ordered i.heap) (bound : scope < i.heap.scopes.size)
    (literals : HoldsLiterals u made i scope)
    (named : ∀ (code : Nat) name, u.literals.names[code]? = some name → ∃ n, name = literalName n)
    (short : data.length + 1 < Number.exactLimit) :
    Entered made (acceptor :: data) i.heap.scopes.size u
      (activationImage i scope ("values" :: hosts) (acceptor :: data)) where
  receiving := by
    have size := activationImage_size i scope ("values" :: hosts) (acceptor :: data)
    have own := activationImage_scope i scope ("values" :: hosts) (acceptor :: data)
    refine ⟨(activationImage_steady ordered.valid bound _ _).ordered, by omega, by rw [own],
      ⟨i.heap.vectors.size, ?_, ?_⟩, Nat.succ_pos _, short⟩
    · rw [Image.own?, own]
      exact activationVariables_arguments _
    · change (i.heap.vectors.push _).getD i.heap.vectors.size #[] = _
      rw [getD_push, if_pos rfl]
  literals := by
    refine ⟨fun key name held => ?_, literals.symbol, literals.character⟩
    obtain ⟨n, rfl⟩ := named _ _ held
    have unreserved := literalName_unreserved n
    rw [lookupVariable?_activationImage ordered bound]
    · exact literals.held key _ held
    · intro member
      rcases List.mem_cons.mp member with same | inside
      · exact unreserved (same ▸ by decide)
      · exact (new.made _ inside).ne_literal n rfl
    · exact fun same => unreserved (same ▸ by decide)
  named := named

end Activations

section Calls

variable {i : Image} {fn scope steps : Nat} {hosts : List String} {head : Head} {data : List Value}
  {acceptor : Value} {made : LiteralKey → Value} {host : SymbolId → String} {stmts : List Stmt}

theorem counted_congr {α : Type} {x y : Run α}
    (same : x { i with depth := i.depth + 1 } = y { i with depth := i.depth + 1 }) :
    counted x i = counted y i := by
  unfold counted
  rw [same]

/-- A call of a function with the given arguments comes to what the lambda list says of them, after
which, unless they are refused, the statements of the body run in the scope of the activation, in
which the variables hold what the lambda list says. -/
def Takes (list : LambdaList) (image : Image) (made : LiteralKey → Value) (host : SymbolId → String)
    (stmts : List Stmt) (steps : Nat) (function : Value) (acceptor : Value) (data : List Value)
    (i later : Image) : Prop :=
  match list.refusal? data with
  | some refusal => callWithin (steps + 2) function (acceptor :: data) i = counted
      (fun _ => .error (.failed (list.failure data.length later.print refusal)) later) i
  | none => callWithin (steps + 2) function (acceptor :: data) i = counted (fun _ =>
        (execBlock (callWithin (steps + 1)) (steps + 1) i.heap.scopes.size stmts >>= resultOf) later)
        i ∧
      list.Receives data (DefaultHas image made fun id value =>
        later.own? i.heap.scopes.size (host id) = some value) i.heap later.heap
        fun id value => later.own? i.heap.scopes.size (host id) = some value

/-- Where a function is entered, the statements at its head say what the lambda list says of the
arguments. -/
theorem ParametersBound.enters (bound : ParametersBound list s t env head hosts)
    (named : ∀ id ∈ list.boundVars, IsHost t head.env id (host id)) (ordered : Ordered i.heap)
    (known : scope < i.heap.scopes.size) (literals : HoldsLiterals t made i scope)
    (few : data.length + 1 < ampleArguments) (enough : data.length ≤ steps)
    (defined : ∀ value ∈ data, value ≠ .undefined) :
    ∃ code later, (∀ stmts, head.prologue.finish stmts = code ++ stmts) ∧
      Touches i.heap.scopes.size (Made s.counters t.counters)
        (activationImage i scope ("values" :: hosts) (acceptor :: data)) later ∧
      match list.refusal? data with
      | some refusal => execBlock (callWithin (steps + 1)) (steps + 1) i.heap.scopes.size code
            (activationImage i scope ("values" :: hosts) (acceptor :: data)) =
          .error (.failed (list.failure data.length later.print refusal)) later
      | none => execBlock (callWithin (steps + 1)) (steps + 1) i.heap.scopes.size code
            (activationImage i scope ("values" :: hosts) (acceptor :: data)) = .ok .normal later ∧
          list.Receives data
            (DefaultHas s.image made fun id value =>
              later.own? i.heap.scopes.size (host id) = some value) i.heap later.heap
            fun id value => later.own? i.heap.scopes.size (host id) = some value := by
  obtain ⟨code, prologue, runs⟩ := bound.code
  have entered : Entered made (acceptor :: data) i.heap.scopes.size t
      (activationImage i scope ("values" :: hosts) (acceptor :: data)) :=
    entered_activation bound.newHosts ordered known literals bound.binds.ready.named few
  obtain ⟨later, touches, outcome⟩ := runs host named steps (steps + 1) i.heap.scopes.size acceptor
    data made _ entered (Nat.lt_succ_of_le enough) defined
    (fun k name found => own?_activationImage bound.newHosts found)
    (fun d name generated absent => by
      rw [Image.own?, activationImage_scope]
      refine activationVariables_of_notMem generated.ne_arguments (fun member => ?_) _
      rcases List.mem_cons.mp member with rfl | inside
      · exact generated.unreserved (by decide)
      · exact absent inside)
  refine ⟨code, later, fun stmts => by rw [prologue]; rfl, touches, ?_⟩
  cases refused : list.refusal? data with
  | some refusal =>
      rw [refused] at outcome
      exact outcome
  | none =>
      rw [refused] at outcome
      obtain ⟨ran, receives⟩ := outcome
      refine ⟨ran, { receives with rest := fun var is => ?_ }⟩
      obtain ⟨value, fresh, held⟩ := receives.rest var is
      exact ⟨value, isFreshList_since fresh (Nat.le_refl _), held⟩

theorem ParametersBound.takes (bound : ParametersBound list s t env head hosts)
    (named : ∀ id ∈ list.boundVars, IsHost t head.env id (host id))
    (callable : (i.heap.function fn).callable =
      .closure ("values" :: hosts) (head.prologue.finish stmts) scope)
    (ordered : Ordered i.heap) (literals : HoldsLiterals t made i scope)
    (few : data.length + 1 < ampleArguments) (enough : data.length ≤ steps)
    (defined : ∀ value ∈ data, value ≠ .undefined) :
    ∃ later, Takes list s.image made host stmts steps (.function fn) acceptor data i later := by
  let counting : Image := { i with depth := i.depth + 1 }
  obtain ⟨code, later, finish, -, outcome⟩ := bound.enters (i := counting)
    named ordered (ordered.closures fn _ _ scope callable).1
    ⟨literals.held, literals.symbol, literals.character⟩ few enough defined
  have called : callWithin (steps + 2) (.function fn) (acceptor :: data) i = _ :=
    callWithin_closure (finish stmts ▸ callable) few
  refine ⟨later, ?_⟩
  unfold Takes
  cases refused : list.refusal? data with
  | some refusal =>
      rw [refused] at outcome
      refine called.trans (counted_congr ?_)
      change EStateM.bind _ _ _ = _
      rw [EStateM.bind, execBlock_append_fails outcome]
  | none =>
      rw [refused] at outcome
      obtain ⟨ran, receives⟩ := outcome
      refine ⟨called.trans (counted_congr ?_), receives⟩
      change EStateM.bind _ _ _ = EStateM.bind _ _ _
      rw [EStateM.bind, EStateM.bind, execBlock_append_continues ran]

theorem Takes.sameDefaults {function : Value} {image image' i later : Image}
    (takes : Takes list image' made host stmts steps function acceptor data i later)
    (simple : list.HasSimpleDefaults image) (same : ∀ {form read},
      defaultForm? image form = some read → defaultForm? image' form = some read) :
    Takes list image made host stmts steps function acceptor data i later := by
  unfold Takes at takes ⊢
  cases refused : list.refusal? data with
  | some refusal =>
      rw [refused] at takes
      exact takes
  | none =>
      rw [refused] at takes
      exact ⟨takes.1, takes.2.sameDefaults simple same⟩

/-- Declarations in a function leave its parameters where they are. -/
theorem isHost_applied {specs : DeclSpecs} {bound : List SymbolId} {env' : Environment}
    (redeclares : Redeclares s t env env' (specs.applied bound)) {id : SymbolId} {name : String}
    (member : id ∈ bound) (isHost : IsHost s env id name) : IsHost t env' id name := by
  have outside : ¬ (True ∧ (specs.specials.filter fun id => !bound.contains id).any
      fun other => (Value.ofSymbol other).eql (.ofSymbol id)) := by
    rintro ⟨-, some_⟩
    obtain ⟨other, inside, same⟩ := List.any_eq_true.mp some_
    have free := (List.mem_filter.mp inside).2
    rw [(ofSymbol_eql other id).mp same] at free
    simp [member] at free
  have unchanged : specs.applied bound (.ofSymbol id) .vars { reference := .host name } =
      { reference := .host name } := by
    simp only [DeclSpecs.applied, Meaning.setFor, reduceCtorEq, false_and, if_false]
    exact if_neg outside
  rw [IsHost, redeclares.meaning, isHost, Option.map_some, unchanged]

/-- Code of a function implements the lambda list that was read: `host` tells the script variables
that its variables are compiled to, and calls of a function made by the code take their arguments as
the list says. -/
def Implements (depth : Nat) (context : Context) (list : LambdaList) (parsed : Body)
    (name : Option SymbolId) (s : CompileState) (code : Expr) : Prop :=
  ∃ head hosts env u stmts host,
    CompilesFunction depth context list parsed name s code head hosts env u stmts ∧
    (∀ id ∈ list.boundVars, IsHost u env id (host id)) ∧
    ∀ steps fn scope acceptor data made i,
      (i.heap.function fn).callable =
        .closure ("values" :: hosts) (head.prologue.finish stmts) scope →
      Ordered i.heap → HoldsLiterals u made i scope → data.length + 1 < ampleArguments →
      data.length ≤ steps → (∀ value ∈ data, value ≠ .undefined) →
      ∃ later, Takes list s.image made host stmts steps (.function fn) acceptor data i later

theorem prologue_implements_lambdaList {depth : Nat} {lambdaList : Value} {body : List Value}
    {name : Option SymbolId} {code : Expr} {parsed : Body}
    (compiled : compileLambda (compileWithin depth) context lambdaList body name s = .ok code t)
    (read : parseLambdaList lambdaList s = .ok list s₁)
    (bodyRead : parseBody body true s₁ = .ok parsed s₂)
    (ready : Ready s context.env) (distinct : list.boundVars.Nodup)
    (lexical : ∀ id ∈ list.boundVars, IsLexical parsed.declarations.specials s id)
    (simple : list.HasSimpleDefaults s₂.image) :
    Implements depth context list parsed name s₂ code := by
  obtain ⟨head, hosts, env, u, stmts, parts, -⟩ := compileLambda_parts compiled read bodyRead
  obtain ⟨s₃, s₄, s₅, s₆, forms, holder, properties, checked, formed, bindsAll, applied, -⟩ :=
    id parts
  have interns : Interns s s₂ := Interning.trans ((parseLambdaList_obeys lambdaList).ended read)
    ((parseBody_obeys body true).ended bodyRead)
  obtain ⟨goes, notNil⟩ := checkBindables_ok (ready.interns interns) checked
  have makes := bodyForms_ok formed
  have ready₄ := goes.ready.makesConses makes
  have lexical₄ : ∀ id ∈ list.boundVars, IsLexical parsed.declarations.specials s₄ id :=
    fun id member => (((lexical id member).interns interns).later (ready.interns interns)
      goes.onward).makesConses makes
  have simple₄ : list.HasSimpleDefaults s₄.image :=
    makes.hasSimpleDefaults (goes.onward.image ▸ simple)
  have bound := bindParameters_ok ready₄ lexical₄ notNil distinct simple₄
    (parseLambdaList_keyed lambdaList s list s₁ read) bindsAll
  choose! host named using fun id member => (bound.areHosts id member).imp fun _ => And.left
  obtain ⟨env', later, appliedAgain, redeclares⟩ := applyFreeDeclarations_ok bound.binds.ready.placed
    bound.binds.ready.holds parsed.declarations list.boundVars
  obtain ⟨rfl, rfl⟩ : env' = env ∧ later = u := by
    have equal := appliedAgain.symm.trans applied
    cases equal
    exact ⟨rfl, rfl⟩
  refine ⟨head, hosts, env', later, stmts, host, parts,
    fun id member => isHost_applied redeclares member (named id member), ?_⟩
  intro steps fn scope acceptor data made i callable ordered literals few enough defined
  obtain ⟨bindings, rfl⟩ := redeclares.rest
  obtain ⟨after, takes⟩ := bound.takes named callable ordered
    ⟨literals.held, literals.symbol, literals.character⟩ few enough defined
  refine ⟨after, takes.sameDefaults simple fun reads => ?_⟩
  rw [← goes.onward.image] at reads
  exact makes.reads reads

/-- `(LIST &OPTIONAL (FUNCTION LIST SPECIAL) &REST DECLARE)` -/
def optionalAndRest : List Cell :=
  [⟨.symbol SymbolId.list, .cons 1⟩, ⟨.symbol SymbolId.ampOptional, .cons 2⟩, ⟨.cons 5, .cons 3⟩,
    ⟨.symbol SymbolId.ampRest, .cons 4⟩, ⟨.symbol SymbolId.declare, .nil⟩,
    ⟨.symbol SymbolId.function, .cons 6⟩, ⟨.symbol SymbolId.list, .cons 7⟩,
    ⟨.symbol SymbolId.special, .nil⟩]

def optionalAndRestRead : LambdaList where
  required := [SymbolId.list]
  optional := [⟨SymbolId.function, .symbol SymbolId.list, some SymbolId.special⟩]
  rest := some SymbolId.declare

theorem Ready.reading (cells : List Cell) : Ready (CompileState.reading cells) [] where
  placed := Bindings.Placed.initial
  holds _ member := (List.not_mem_nil member).elim
  bounded := ⟨Nat.zero_le _, Nat.zero_le _, Nat.zero_le _, Nat.zero_le _⟩
  named code name held := by
    change (∅ : Std.TreeMap Nat String compare)[code]? = some name at held
    simp at held

def succeeds {α : Type} (step : Compile α) (s : CompileState) : Bool :=
  match step s with
  | .ok _ _ => true
  | .error _ _ => false

theorem ok_of_succeeds {α : Type} {step : Compile α} (known : succeeds step s = true) :
    ∃ a t, step s = .ok a t := by
  unfold succeeds at known
  split at known
  · rename_i a t ok
    exact ⟨a, t, ok⟩
  · cases known

theorem simple_optionalAndRest {image : Image}
    (isVariable : image.symbols.isKeyword SymbolId.list = false) :
    optionalAndRestRead.HasSimpleDefaults image where
  optional before param after same := by
    cases before with
    | nil =>
        cases same
        refine ⟨_, defaultForm?_variable (by decide) isVariable, ?_⟩
        rintro _ ⟨⟩
        exact List.mem_cons_self
    | cons _ _ => simp [optionalAndRestRead] at same
  key before param after same := by simp [optionalAndRestRead] at same

theorem prologue_of_optionalAndRest :
    let s := CompileState.reading optionalAndRest
    let list := optionalAndRestRead
    let parsed : Body := { forms := [.symbol SymbolId.declare] }
    parseLambdaList (.cons 0) s = .ok list s ∧ parseBody parsed.forms true s = .ok parsed s ∧
    Ready s [] ∧ list.boundVars.Nodup ∧ (∀ id ∈ list.boundVars, IsLexical [] s id) ∧
    list.HasSimpleDefaults s.image ∧
    ∃ code t, compileLambda (compileWithin 3) {} (.cons 0) parsed.forms none s = .ok code t ∧
      Implements 3 {} list parsed none s code := by
  intro s list parsed
  have read : parseLambdaList (.cons 0) s = .ok list s := rfl
  have bodyRead : parseBody parsed.forms true s = .ok parsed s := rfl
  have ready : Ready s [] := .reading optionalAndRest
  have distinct : list.boundVars.Nodup := by decide
  have known : succeeds (compileLambda (compileWithin 3) {} (.cons 0) parsed.forms none) s = true ∧
      s.image.symbols.isKeyword SymbolId.list = false ∧
      ∀ id ∈ list.boundVars, (s.bindings.globalMeaning id .vars).special = false := by
    decide +kernel
  obtain ⟨ends, variable_, plain⟩ := known
  have lexical : ∀ id ∈ list.boundVars, IsLexical [] s id := fun id member =>
    ⟨nofun, plain id member⟩
  have simple := simple_optionalAndRest variable_
  obtain ⟨code, t, compiled⟩ := ok_of_succeeds ends
  exact ⟨read, bodyRead, ready, distinct, lexical, simple, code, t, compiled,
    prologue_implements_lambdaList compiled read bodyRead ready distinct lexical simple⟩

end Calls

end LispScript.Compiler
