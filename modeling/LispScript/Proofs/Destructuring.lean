import LispScript.Proofs.Entering
import LispScript.Proofs.QuotedData

/-!
Destructuring. The form that spreads sublists over their variables leads to the body, with all variables
bound to the parts of the arguments that stand in their places, where the arguments match; elsewhere it
fails.
-/

namespace LispScript.Compiler

open Script Machine Discipline

variable {s t u last : CompileState} {env env' : Environment} {context : Context} {depth : Nat}
  {made : LiteralKey → Value} {i j k : Image} {c d e : Nat} {id : SymbolId} {value : Value}

section Running

/-- A place in the run of a unit: the literals of the unit and an acceptor are in reach. -/
structure Located (last : CompileState) (made : LiteralKey → Value) (i : Image) (c : Nat) : Prop where
  ordered : Ordered i.heap
  bound : c < i.heap.scopes.size
  literals : HoldsLiterals last made i c
  named : ∀ (key : LiteralKey) name, last.literals.names[key.code]? = some name →
    ∃ n, name = literalName n
  accepts : ∃ acceptor, i.heap.lookupVariable? c "values" = some acceptor

/-- Names that the compiler has made. -/
def Generated (fresh : String → Prop) : Prop := ∀ name, fresh name → ∃ c c', Made c c' name

theorem Located.deeper {fresh : String → Prop} (located : Located last made i c)
    (deeper : Deeper fresh i c j d) (generated : Generated fresh) : Located last made j d where
  ordered := deeper.ordered
  bound := deeper.bound
  literals := deeper.literals located.literals located.named fun n new => by
    obtain ⟨_, _, isMade⟩ := generated _ new
    exact isMade.ne_literal n rfl
  named := located.named
  accepts := by
    obtain ⟨acceptor, held⟩ := located.accepts
    refine ⟨acceptor, (deeper.lookup "values" (fun new => ?_) (by decide)).trans held⟩
    obtain ⟨_, _, isMade⟩ := generated _ new
    exact isMade.unreserved (by decide)

theorem generated_made (c c' : Counters) : Generated (Made c c') := fun _ isMade => ⟨c, c', isMade⟩

/-- The script variable of a variable has a value. -/
def Gives (s : CompileState) (env : Environment) (i : Image) (c : Nat) (id : SymbolId) (value : Value) :
    Prop :=
  ∃ host, IsHost s env id host ∧ Made {} s.counters host ∧ i.heap.lookupVariable? c host = some value

theorem Gives.later {bound : List SymbolId} (gives : Gives s env i c id value)
    (widens : Widens bound s t env env') (free : id ∉ bound)
    (deeper : Deeper (Made s.counters t.counters) i c j d) : Gives t env' j d id value := by
  obtain ⟨host, isHost, isMade, held⟩ := gives
  exact ⟨host, (widens.isHost free).mpr isHost, isMade.left widens.proceeds.counters,
    (deeper.lookup host isMade.disjoint isMade.ne_arguments).trans held⟩

/-- A run comes to statements further in, past some more calls, with nothing but calls around it. -/
def Comes {α : Type} (fresh : String → Prop) (run : Run α) (i : Image) (c count steps : Nat)
    (stmts : List Stmt) (good : Image → Nat → Prop) : Prop :=
  ∃ j d pending, Machine.Active (execBlock (callWithin (steps + 1)) (steps + 1) d stmts) j run i pending ∧
    NoCleanups pending ∧ Deeper fresh i c j d ∧ j.depth = i.depth + count ∧ good j d

/-- A run ends with a failure. -/
def Fails {α : Type} (run : Run α) (i : Image) : Prop := ∃ error k, run i = .error (.failed error) k

variable {fresh fresh' more : String → Prop} {count count' steps steps' : Nat} {stmts stmts' : List Stmt}
  {good good' : Image → Nat → Prop} {α : Type} {run : Run α} {code : Expr}

theorem Comes.trans (first : Comes fresh run i c count steps stmts good)
    (second : ∀ j d, Deeper fresh i c j d → j.depth = i.depth + count → good j d →
      Comes fresh' (execBlock (callWithin (steps + 1)) (steps + 1) d stmts) j d count' steps' stmts' good')
    (within : ∀ name, fresh name → more name) (within' : ∀ name, fresh' name → more name) :
    Comes more run i c (count + count') steps' stmts' good' := by
  obtain ⟨j, d, pending, active, none_, deeper, depth, is⟩ := first
  obtain ⟨k, e, inside, active', none', deeper', depth', is'⟩ := second j d deeper depth is
  exact ⟨k, e, inside ++ pending, active'.trans active, none'.append none_,
    (deeper.mono within).trans (deeper'.mono within'), by omega, is'⟩

theorem Comes.imp (comes : Comes fresh run i c count steps stmts good)
    (weaker : ∀ j d, Deeper fresh i c j d → good j d → good' j d) :
    Comes fresh run i c count steps stmts good' := by
  obtain ⟨j, d, pending, active, none_, deeper, depth, is⟩ := comes
  exact ⟨j, d, pending, active, none_, deeper, depth, weaker j d deeper is⟩

theorem Comes.ofReturn {call : Caller} {turns : Nat}
    (comes : Comes fresh (evalExpr call turns c code) i c count steps stmts good) :
    Comes fresh (execBlock call turns c [.ret code]) i c count steps stmts good := by
  obtain ⟨j, d, pending, active, others⟩ := comes
  exact ⟨j, d, pending, .ofReturn active, others⟩

theorem Fails.ofReturn {call : Caller} {turns : Nat} (fails : Fails (evalExpr call turns c code) i) :
    Fails (execBlock call turns c [.ret code]) i := by
  obtain ⟨error, k, failed⟩ := fails
  obtain ⟨k', failed⟩ := (Machine.Active.ofReturn .here).failed (by simp [NoCleanups]) failed
  exact ⟨error, k', failed⟩

theorem Comes.fails (first : Comes fresh run i c count steps stmts good)
    (second : ∀ j d, Deeper fresh i c j d → j.depth = i.depth + count → good j d →
      Fails (execBlock (callWithin (steps + 1)) (steps + 1) d stmts) j) : Fails run i := by
  obtain ⟨j, d, pending, active, none_, deeper, depth, is⟩ := first
  obtain ⟨error, k, failed⟩ := second j d deeper depth is
  obtain ⟨k', failed⟩ := active.failed none_ failed
  exact ⟨error, k', failed⟩

/-- A copy of a script variable is made in a scope of its own. -/
theorem copy_runs (call : Caller) (turns : Nat) {host : String} (copy : String) (inner : Expr)
    (ordered : Ordered i.heap) (bound : c < i.heap.scopes.size) (host_ne : host ≠ "arguments")
    (held : i.heap.lookupVariable? c host = some value) :
    ∃ j, Machine.Active (evalExpr call turns i.heap.scopes.size inner) j
        (evalExpr call turns c (.wrap [.define copy (.ident host), .ret inner])) i [] ∧
      Deeper (· = copy) i c j i.heap.scopes.size ∧ j.depth = i.depth ∧
      j.heap.lookupVariable? i.heap.scopes.size copy = some value := by
  have inside : Deeper (fun _ => False) i c (i.inside c) i.heap.scopes.size := .inside ordered bound
  have active : LispScript.Active i.heap.scopes.size (i.inside c) :=
    ⟨inside.ordered, inside.bound, by rw [inside_scope]⟩
  have seen : evalExpr call turns i.heap.scopes.size (.ident host) (i.inside c) = .ok value (i.inside c) :=
    evalExpr_ident ((inside.lookup host id host_ne).trans held)
  have set_ : Touches i.heap.scopes.size (· = copy) (i.inside c)
      ((i.inside c).setOwn i.heap.scopes.size copy value) := by
    refine .setOwn active.bound ?_ value
    rfl
  have deeper := set_.deeper inside.ordered inside.bound
  refine ⟨_, .ofWrap (.afterStmt (active.exec_define seen) (.ofReturn .here)),
    (inside.mono fun _ => False.elim).trans deeper, rfl, ?_⟩
  exact lookupVariable?_own deeper.bound (own?_setOwn active.bound)

end Running

section Spreading

variable {form list lambda : Value} {forms args : List Value} {param var : SymbolId} {host : String}
  {count : Nat} {code : Expr}

/-- The name `APPLY` means the built-in function. -/
def AppliesBuiltin (s : CompileState) (env : Environment) : Prop :=
  s.bindings.meaning? env (.ofSymbol SymbolId.apply) .functions = some { reference := .slot }

theorem AppliesBuiltin.later {bound : List SymbolId} (applies : AppliesBuiltin s env)
    (widens : Widens bound s t env env') : AppliesBuiltin t env' :=
  (widens.functions _).trans applies

theorem Situated.goesOn (situated : Situated s env) (goes : GoesOn env s t) (later : Later s t)
    (sparing : Sparing (· = "values") t) : Situated t env where
  ready := goes.ready
  sparing := sparing
  apart := situated.apart
  locals binding member := goes.onward.bindings.locals binding (situated.locals binding member)
  tabled := situated.tabledLater later

theorem IsNew.kept (isNew : IsNew count s.image.symbols id) (later : Later s t) :
    IsNew count t.image.symbols id where
  new := isNew.new
  known := Nat.lt_of_lt_of_le isNew.known (later KeepsLocals).homes.size
  uninterned := ((later KeepsLocals).homes.home id isNew.known).trans isNew.uninterned

/-- Where the lambda expression is compiled that a call of `APPLY` spreads a list over. -/
structure CompilesSpread (depth : Nat) (context : Context) (list : Value) (forms : List Value)
    (host : String) (s : CompileState) (code : Expr) (t : CompileState) where
  rest : Nat
  start : CompileState
  lambda : Expr
  last : CompileState
  depth_eq : depth = rest + 2
  widens : Widens [] s start context.env context.env
  situated : Situated start context.env
  compiled : compileLambda (compileWithin rest) context.single list forms none start = .ok lambda last
  later : Later last t
  code_eq : code = .callPrimitive .apply [.ident "values", lambda, .ident host]

theorem compile_spread (situated : Situated s context.env) (applies : AppliesBuiltin s context.env)
    (many : context.manyValues = true) (isSpread : IsSpread s.image.heap list forms param form)
    (isHost : IsHost s context.env param host) (isNew : IsNew count s.image.symbols param)
    (enough : SymbolId.apply.index < count) (ok : compileWithin depth context form s = .ok code t) :
    Nonempty (CompilesSpread depth context list forms host s code t) := by
  obtain ⟨function, lambda, form_, function_, lambda_⟩ := isSpread
  cases depth with
  | zero => cases ok
  | succ depth =>
      obtain ⟨s₁, codes, goes, later₁, sparing, args_, rfl⟩ := compile_inlined (p := .apply)
        situated.ready applies rfl rfl rfl (by decide) (by decide) form_ ok
      rw [compileArgs, List.mapM_cons] at args_
      obtain ⟨codeFunction, s₂, first, args_⟩ := ok_of_bind args_
      obtain ⟨codes', s₃, args_, ended⟩ := ok_of_bind args_
      cases ended
      rw [List.mapM_cons] at args_
      obtain ⟨codeParam, s₄, second, args_⟩ := ok_of_bind args_
      obtain ⟨_, _, none_, ended⟩ := ok_of_bind args_
      cases none_
      cases ended
      have situated₁ := situated.goesOn goes later₁ (sparing situated.sparing)
      have heap_eq : s₁.image.heap = s.image.heap := congrArg Image.heap goes.onward.image
      cases depth with
      | zero => cases first
      | succ rest =>
          have first : compileWithin (rest + 1) context.single function s₁ = .ok codeFunction s₂ := first
          have lambda_ok := functionReference_lambda (heap_eq ▸ lambda_)
            (compile_function (heap_eq ▸ function_) first)
          have later₂ : Later s₁ s₂ := later_compileWithin first
          have isHost₁ := ((goes.binds situated.ready).isHost List.not_mem_nil).mpr isHost
          have isHost₂ : IsHost s₂ context.single.env param host :=
            isHost₁.later situated₁.sparing.globals situated₁.locals later₂
          have holds₂ : s₂.bindings.Holds context.single.env := holds_later situated₁.locals later₂
          have isNew₂ := (goes.onward.image ▸ isNew : IsNew count s₁.image.symbols param).kept later₂
          obtain ⟨-, rfl⟩ := compile_newVariable (later₂ StaysPlaced situated₁.ready.placed) holds₂
            isHost₂ isNew₂ enough second
          refine ⟨⟨rest, s₁, codeFunction, s₂, rfl, (goes.binds situated.ready).widens later₁, situated₁,
            lambda_ok, later_compileWithin second, ?_⟩⟩
          rw [Context.acceptor, if_pos many]
          rfl

end Spreading

section Steps

variable {heap : Heap} {forms body items args : List Value} {bound : List SymbolId} {stmts : List Stmt}
  {form spread list : Value} {param : SymbolId} {whole : Option SymbolId} {count : Nat} {code : Expr}

/-- The body of a function is compiled where what it declares has been applied: variables that it does
not declare are there what they were. It was read when there was all that is in the given heap. -/
structure FormsAt (heap : Heap) (forms : List Value) (s : CompileState) (env : Environment)
    (stmts : List Stmt) (t : CompileState) : Prop where
  parts : ∃ parsed r r' env' u depth, parseBody forms true r = .ok parsed r' ∧
    heap.Keeps r.image.heap ∧ (parsed.declarations = {} → env' = env ∧ u = s) ∧
    (∀ id, id ∉ parsed.declarations.specials → ∀ host, IsHost s env id host → IsHost u env' id host) ∧
    compileBody (compileWithin depth) { env := env' } parsed.forms u = .ok stmts t
  later : Later s t

/-- The body of a lambda expression is compiled after its parameters are bound. -/
theorem LambdaEntry.laterBound {parameters : LambdaList} {parsed : Body} {name : Option SymbolId}
    (e : LambdaEntry depth context parameters parsed name s code t) : Later e.bound e.last := fun _ _ =>
  Interning.trans ((applyFreeDeclarations_obeys _ _ _).ended e.applied)
    ((compileBody_obeys (compileWithin_obeys depth) _ _).ended e.compiled)

/-- Variables that a body does not declare are what they are outside. -/
theorem IsHost.declared {specs : DeclSpecs} {host : String} (ready : Ready s env)
    (applied : applyFreeDeclarations env specs bound s = .ok env' t) (free : id ∉ specs.specials)
    (isHost : IsHost s env id host) : IsHost t env' id host := by
  obtain ⟨_, _, ran, redeclares⟩ := applyFreeDeclarations_ok ready.placed ready.holds specs bound
  cases ran.symm.trans applied
  have undeclared : ∀ other ∈ specs.specials.filter fun id => !bound.contains id,
      (Value.ofSymbol other).eql (.ofSymbol id) ≠ true := fun other member same =>
    free ((ofSymbol_eql other id).mp same ▸ (List.mem_filter.mp member).1)
  rw [IsHost, redeclares.meaning, isHost, Option.map_some, DeclSpecs.applied]
  simpa [Meaning.setFor] using undeclared

theorem BindsWhole.isPlain (bindsWhole : BindsWhole heap param spread whole form)
    (isSpread : IsSpread heap list forms param spread) : IsPlainForm heap form :=
  bindsWhole.plain isSpread.plain

/-- A body that is one form that spreads a list. -/
theorem FormsAt.single (formsAt : FormsAt heap [form] s env stmts t)
    (bindsWhole : BindsWhole heap param spread whole form)
    (isSpread : IsSpread heap list forms param spread) :
    ∃ depth code, compileWithin depth { env } form s = .ok code t ∧ stmts = [.ret code] := by
  obtain ⟨⟨parsed, r, r', env', u, depth, read, keeps, none_, -, compiled⟩, -⟩ := formsAt
  rw [parseBody_single ((bindsWhole.kept keeps).isPlain (isSpread.kept keeps))] at read
  cases read
  obtain ⟨rfl, rfl⟩ := none_ rfl
  exact ⟨depth, compileBody_single compiled⟩

/-- A form that spreads a list is compiled behind the variable for the whole of the list, if there is
one. -/
structure BehindWhole (whole : Option SymbolId) (spread : Value) (host : String) (s : CompileState)
    (env : Environment) (code : Expr) (t : CompileState) where
  env' : Environment
  start : CompileState
  depth : Nat
  inner : Expr
  widens : Widens whole.toList s start env env'
  situated : Situated start env'
  compiled : compileWithin depth { env := env' } spread start = .ok inner t
  runs : ∀ {i : Image} {c : Nat} {value : Value} (call : Caller) (turns : Nat), Ordered i.heap →
    c < i.heap.scopes.size → i.heap.lookupVariable? c host = some value →
    ∃ j d, Machine.Active (evalExpr call turns d inner) j (evalExpr call turns c code) i [] ∧
      Deeper (Made s.counters start.counters) i c j d ∧ j.depth = i.depth ∧
      ∀ var ∈ whole, Gives start env' j d var value

theorem behindWhole (situated : Situated s env)
    (bindsWhole : BindsWhole s.image.heap param spread whole form)
    (isSpread : IsSpread s.image.heap list forms param spread) {host : String}
    (isHost : IsHost s env param host) (made : Made {} s.counters host)
    (isNew : IsNew count s.image.symbols param) (enough : SymbolId.apply.index < count)
    (lexical : ∀ var ∈ whole, IsLexical [] s var)
    (ok : compileWithin depth { env } form s = .ok code t) :
    Nonempty (BehindWhole whole spread host s env code t) := by
  cases whole with
  | none =>
      cases bindsWhole
      refine ⟨⟨env, s, depth, code, situated.ready.widens, situated, ok, ?_⟩⟩
      intro i c value call turns ordered bound _
      exact ⟨i, c, .here, .refl ordered bound, rfl, by simp⟩
  | some var =>
      cases depth with
      | zero => cases ok
      | succ depth =>
          obtain ⟨copy, env', u, inner, binds⟩ := compile_bindsWhole bindsWhole isSpread.plain
            situated.ready isHost isNew enough (lexical var rfl) ok
          obtain ⟨sparing, apart⟩ := binds.spares situated.sparing situated.apart
          refine ⟨⟨env', u, depth, inner, binds.widens, binds.widens.situated situated sparing apart,
            binds.compiled, ?_⟩⟩
          · intro i c value call turns ordered bound held
            obtain ⟨j, active, deeper, depth_eq, given⟩ := copy_runs call turns copy inner
              ordered bound made.ne_arguments held
            refine ⟨j, _, binds.code_eq ▸ active, deeper.mono fun name same => same ▸ binds.made, depth_eq,
              fun other is => ?_⟩
            cases is
            exact ⟨copy, binds.isHost, binds.made.ever, given⟩

/-- A form that spreads a list over the variables of a lambda list, behind the variable for the whole
of the list, if there is one: where the body is compiled, and what runs come to. -/
structure SpreadsOver (heap : Heap) (forms : List Value) (param : SymbolId) (whole : Option SymbolId)
    (list : LambdaList) (s : CompileState) (env : Environment) (code : Expr) (t : CompileState) where
  env' : Environment
  inner : CompileState
  stmts : List Stmt
  ended : CompileState
  widens : Widens (whole.toList ++ list.boundVars) s inner env env'
  situated : Situated inner env'
  formsAt : FormsAt heap forms inner env' stmts ended
  later : Later ended t
  hosts : ∀ id ∈ list.boundVars, ∃ host, IsHost inner env' id host ∧ Made {} inner.counters host
  runs : ∀ {last : CompileState} {made : LiteralKey → Value} {i : Image} {c : Nat} {arg : Value}
    {items : List Value} (steps turns : Nat), Later inner last → Located last made i c →
    Gives s env i c param arg → i.heap.Spine arg items .nil → items.length + 1 < ampleArguments →
    items.length ≤ steps → (∀ item ∈ items, item ≠ .undefined) → i.depth < i.depthLimit →
    let run := evalExpr (callWithin (steps + 3)) turns c code
    match list.refusal? items with
    | some _ => Fails run i
    | none => Comes (Made s.counters inner.counters) run i c 1 steps stmts fun j d =>
        (∀ var ∈ whole, Gives inner env' j d var arg) ∧
        list.Receives items (LiteralValue made) i.heap j.heap (Gives inner env' j d)

theorem spreadsOver (vars : List SymbolId) (situated : Situated s env) (applies : AppliesBuiltin s env)
    (keeps : heap.Keeps s.image.heap) (spine : heap.Spine list items .nil)
    (isSpread : IsSpread heap list forms param spread)
    (bindsWhole : BindsWhole heap param spread whole form) (apart : param ∉ whole)
    (known : ∃ host, IsHost s env param host ∧ Made {} s.counters host)
    (isNew : IsNew count s.image.symbols param) (enough : SymbolId.apply.index < count)
    (lexical : ∀ id ∈ whole.toList ++ vars, IsLexical [] s id) (distinct : (whole.toList ++ vars).Nodup)
    (undeclared : ∀ parsed r r', parseBody forms true r = .ok parsed r' → heap.Keeps r.image.heap →
      ∀ id ∈ vars, id ∉ parsed.declarations.specials)
    (fits : ∀ r list last, Proceeds s r →
      IsLambdaList r.image.heap True r.image.symbols items list last →
      list.boundVars = vars ∧ ∀ form ∈ list.defaults, IsConstantForm r.image.symbols form)
    (ok : compileWithin depth { env } form s = .ok code t) :
    ∃ r list last, Proceeds s r ∧ IsLambdaList r.image.heap True r.image.symbols items list last ∧
      Nonempty (SpreadsOver heap forms param whole list s env code t) := by
  obtain ⟨host, isHost, madeHost⟩ := known
  obtain ⟨b⟩ := behindWhole situated (bindsWhole.kept keeps) (isSpread.kept keeps) isHost madeHost isNew
    enough (fun var is => lexical var (List.mem_append_left _ (Option.mem_toList.mpr is))) ok
  have isHost₁ : IsHost b.start b.env' param host :=
    (b.widens.isHost fun member => apart (Option.mem_toList.mp member)).mpr isHost
  have keeps₁ := keeps.trans b.widens.proceeds.heap
  have asked : compileWithin b.depth ({ env := b.env' } : Context) spread b.start = .ok b.inner t :=
    b.compiled
  obtain ⟨cs⟩ := compile_spread b.situated (applies.later b.widens) rfl (isSpread.kept keeps₁) isHost₁
    (isNew.kept b.widens.proceeds.later) enough asked
  have before := b.widens.trans cs.widens
  have keeps₂ := keeps.trans before.proceeds.heap
  have situated₂ : Situated cs.start ({ env := b.env' } : Context).single.env := cs.situated
  obtain ⟨lambdaList, last, parsed, r, r', isList, read, heap_eq, enters⟩ :=
    compileLambda_enters situated₂ (spine.kept keeps₂) cs.compiled
  obtain ⟨vars_eq, constant⟩ := fits cs.start lambdaList last before.proceeds isList
  refine ⟨cs.start, lambdaList, last, before.proceeds, isList, ?_⟩
  subst vars_eq
  have readLater : heap.Keeps r.image.heap := heap_eq ▸ keeps₂
  obtain ⟨e⟩ := enters (List.nodup_append.mp distinct).2.1
    (fun id member => ⟨undeclared _ _ _ read readLater id member, by
      rw [before.proceeds.bindings.globalMeaning situated.ready.placed]
      exact (lexical id (List.mem_append_right _ member)).2⟩) constant
  have forms_eq : parsed.forms = e.forms := (EStateM.Result.ok.inj e.formed).1
  have widens := (before.trans e.begins).trans e.widens
  simp only [List.append_nil] at widens
  have counters := (cs.widens.trans (e.begins.trans e.widens)).proceeds.counters
  have free : ∀ var ∈ whole, var ∉ lambdaList.boundVars := fun var is member =>
    (List.nodup_append.mp distinct).2.2 var (Option.mem_toList.mpr is) var member rfl
  have hosts : ∀ id ∈ lambdaList.boundVars, ∃ host, IsHost e.bound e.head.env id host ∧
      Made {} e.bound.counters host := fun id member => by
    obtain ⟨host, isHost, isMade⟩ := e.binds.areHosts id member
    exact ⟨host, isHost, isMade.ever⟩
  have formsAt : FormsAt heap forms e.bound e.head.env e.stmts e.last := by
    refine ⟨⟨parsed, r, r', e.env, e.body, cs.rest, read, readLater, fun none_ => ?_,
      fun id free host => .declared e.situated.ready e.applied free, forms_eq ▸ e.compiled⟩,
      e.laterBound⟩
    have applied := e.applied
    rw [none_] at applied
    have same : applyFreeDeclarations e.head.env {} lambdaList.boundVars e.bound =
        .ok e.head.env e.bound := rfl
    obtain ⟨env_eq, body_eq⟩ := EStateM.Result.ok.inj (same.symm.trans applied)
    exact ⟨env_eq.symm, body_eq.symm⟩
  refine ⟨⟨e.head.env, e.bound, e.stmts, e.last, widens, e.situated, formsAt, e.later.trans cs.later,
    hosts, ?_⟩⟩
  intro final made i c arg args steps turns later located gives spineArg few enoughSteps defined below
  obtain ⟨host', isHost', -, held⟩ := gives
  obtain rfl := isHost.unique isHost'
  obtain ⟨j, d, active, deeper, depth_eq, wholeGives⟩ := b.runs (callWithin (steps + 3)) turns
    located.ordered located.bound held
  have located₁ := located.deeper deeper (generated_made _ _)
  obtain ⟨acceptor, accepts⟩ := located₁.accepts
  choose! hostOf named using hosts
  have limit := deeper.limit
  have outcome := e.binds.spread turns (fun id member => (named id member).1)
    (fun form member => (constant form member).gains e.begins.proceeds.symbols) e.unreserved e.properties
    e.free located₁.ordered located₁.bound accepts madeHost.ne_arguments
    ((deeper.lookup host (fun new => madeHost.disjoint new) madeHost.ne_arguments).trans held)
    (spineArg.kept deeper.keeps) (e.situated.literals later located₁.literals) few enoughSteps defined
    (by rw [depth_eq, limit]; exact below)
  have inner_eq : b.inner = .callPrimitive .apply [.ident "values", functionCode e.holder e.hosts
      (e.head.prologue.finish e.stmts) e.properties, .ident host] :=
    cs.code_eq.trans (congrArg (fun code => Expr.callPrimitive .apply [.ident "values", code, .ident host])
      e.code_eq)
  rw [inner_eq] at active
  intro run
  cases refused : lambdaList.refusal? args with
  | some refusal =>
      rw [refused] at outcome
      obtain ⟨error, k, failed⟩ := outcome
      obtain ⟨k', failed⟩ := active.failed (by simp [NoCleanups]) failed
      exact ⟨error, k', failed⟩
  | none =>
      rw [refused] at outcome
      obtain ⟨j', d', active', deeper', depth_eq', receives⟩ := outcome
      have lasts := b.widens.proceeds.counters
      refine ⟨j', d', [.activation] ++ [], active'.trans active, by simp [NoCleanups], ?_,
        by rw [depth_eq', depth_eq], fun var is => ?_, ?_⟩
      · refine (deeper.mono fun name new => new.left counters).trans (deeper'.mono fun name new => ?_)
        exact new.right (lasts.trans (cs.widens.trans e.begins).proceeds.counters)
      · have later' := (cs.widens.trans e.begins).trans e.widens
        simp only [List.append_nil, List.nil_append] at later'
        refine (wholeGives var is).later later' (free var is) (deeper'.mono fun name new => ?_)
        exact new.right (cs.widens.trans e.begins).proceeds.counters
      · refine receives.imp (fun id member value held => ?_) (fun _ _ _ => id)
          fun value items fresh => isFreshList_since fresh deeper.keeps.cells
        exact ⟨hostOf id, (named id member).1, (named id member).2, held⟩

end Steps

section Passing

variable {heap before : Heap} {forms body middle args : List Value} {stmts : List Stmt}
  {bound : List SymbolId} {param : SymbolId} {whole : Option SymbolId} {list : LambdaList} {count : Nat}
  {code : Expr} {origin : CompileState} {p q rest inner : Pattern LambdaList}
  {lists : Pattern (List Value)} {behind : LambdaList}

/-- A heap whose lists are short enough to be arguments, and hold only values of the language. -/
structure Surveyable (heap : Heap) (steps : Nat) : Prop where
  enough : heap.cells.size ≤ steps
  few : heap.cells.size + 1 < ampleArguments
  defined : ∀ a, a < heap.cells.size → (heap.cell a).car ≠ .undefined

theorem Surveyable.items {steps : Nat} (surveyable : Surveyable before steps) {tail : Value}
    (spine : before.Spine value args tail) : ∀ item ∈ args, item ≠ .undefined := by
  induction spine with
  | done => simp
  | cons bound _ ih => exact List.forall_mem_cons.mpr ⟨surveyable.defined _ bound, ih⟩

/-- The forms that spread sublists over the variables of a pattern lead to the body behind them: where
it is compiled, and what runs come to. -/
structure Passes (heap : Heap) (body : List Value) (p q : Pattern LambdaList) (s : CompileState)
    (env : Environment) (stmts : List Stmt) (t : CompileState) where
  env' : Environment
  inner : CompileState
  stmts' : List Stmt
  ended : CompileState
  widens : Widens p.binders s inner env env'
  situated : Situated inner env'
  formsAt : FormsAt heap body inner env' stmts' ended
  later : Later ended t
  runs : ∀ {last : CompileState} {made : LiteralKey → Value} {i : Image} {c : Nat} {args : List Value}
    {before : Heap} {n : Nat}, Later inner last → Located last made i c → Surveyable before n →
    before.Keeps i.heap → q.TopsGive (Gives s env i c) args → q.HasLists before args →
    i.depth + p.count ≤ i.depthLimit →
    let run := execBlock (callWithin (n + 2 * p.count + 1)) (n + 2 * p.count + 1) c stmts
    (q.InsideMatches before args → Comes (Made s.counters inner.counters) run i c p.count n stmts'
      fun j d => q.InsideBinds before (LiteralValue made) before j.heap (Gives inner env' j d) args) ∧
    (¬ q.InsideMatches before args → Fails run i)

/-- Where no sublists are spread, the body is reached at once. -/
theorem passes_others (situated : Situated s env)
    (formsAt : FormsAt heap body s env stmts t) (list other : LambdaList) :
    Nonempty (Passes heap body (.others list) (.others other) s env stmts t) := by
  refine ⟨⟨env, s, stmts, t, situated.ready.widens, situated, formsAt, .refl t, ?_⟩⟩
  intro last made i c args before n later located surveyable keeps gives hasLists below run
  refine ⟨fun _ => ⟨i, c, [], .here, by simp [NoCleanups], .refl located.ordered located.bound, rfl,
    trivial⟩, fun not => absurd trivial not⟩

theorem Passes.variable_ (passes : Passes heap body p q s env stmts t) (var : SymbolId) :
    Nonempty (Passes heap body (.variable_ var p) (.variable_ var q) s env stmts t) := by
  refine ⟨⟨passes.env', passes.inner, passes.stmts', passes.ended, passes.widens, passes.situated, passes.formsAt, passes.later, ?_⟩⟩
  intro last made i c args before n later located surveyable keeps gives hasLists below run
  cases args with
  | nil => exact gives.elim
  | cons arg args => exact passes.runs later located surveyable keeps gives hasLists below

/-- A sublist is spread, then the sublists in it, and then those after it. -/
theorem Passes.sublist {q₁ q₂ : Pattern LambdaList}
    (spreads : SpreadsOver heap forms param whole list s env code t)
    (first : Passes heap middle inner q₁ spreads.inner spreads.env' spreads.stmts spreads.ended)
    (second : Passes heap body rest q₂ first.inner first.env' first.stmts' first.ended)
    (list_eq : q₁.list = list) (list_vars : list.boundVars = inner.list.boundVars)
    (vars_eq : q₁.vars = inner.vars) (params_eq : q₂.params = rest.params)
    (distinct : ((Pattern.sublist param whole inner rest).vars ++
      (Pattern.sublist param whole inner rest).params).Nodup) :
    Nonempty (Passes heap body (.sublist param whole inner rest) (.sublist param whole q₁ q₂) s env
      [.ret code] t) := by
  subst list_eq
  obtain ⟨topApart, distinct⟩ := List.nodup_cons.mp ((Pattern.sublist_perm ..).nodup_iff.mp distinct)
  obtain ⟨-, distinct, wholeApart⟩ := List.nodup_append.mp distinct
  obtain ⟨nodupInner, -, innerApart⟩ := List.nodup_append.mp distinct
  have listApart := (List.nodup_append.mp ((Pattern.bound_perm inner).nodup_iff.mpr nodupInner)).2.2
  have widens := (spreads.widens.trans first.widens).trans second.widens
  have toFirst := first.widens.proceeds
  have toSecond := second.widens.proceeds
  refine ⟨⟨second.env', second.inner, second.stmts', second.ended, widens.mono ?_, second.situated, second.formsAt,
    second.later.trans (first.later.trans spreads.later), ?_⟩⟩
  · rw [list_vars]
    simp [Pattern.binders]
  intro last made i c args before n later located surveyable keeps gives hasLists below
  cases args with
  | nil => exact gives.elim
  | cons arg args =>
      obtain ⟨givesArg, givesRest⟩ := gives
      obtain ⟨⟨items, spine, hasInside⟩, hasRest⟩ := hasLists
      have count_eq : (Pattern.sublist param whole inner rest).count = inner.count + rest.count + 1 := rfl
      have steps_eq : n + 2 * (Pattern.sublist param whole inner rest).count + 1 =
          n + 2 * rest.count + 2 * inner.count + 3 := by omega
      have short := spine.length_le_size
      have enough := surveyable.enough
      have few := surveyable.few
      rw [steps_eq]
      have ran := spreads.runs (n + 2 * rest.count + 2 * inner.count)
        (n + 2 * rest.count + 2 * inner.count + 3)
        (toFirst.later.trans (toSecond.later.trans later)) located givesArg (spine.kept keeps) (by omega)
        (by omega) (surveyable.items spine) (by omega)
      cases refused : q₁.list.refusal? items with
      | some refusal =>
          rw [refused] at ran
          refine ⟨fun inside => ?_, fun _ => ran.ofReturn⟩
          obtain ⟨⟨items', spine', matched⟩, -⟩ := inside
          obtain rfl := spine.unique spine'
          rw [Pattern.matches_iff, refused] at matched
          cases matched.1
      | none =>
          rw [refused] at ran
          have beforeRest : ∀ id ∈ q₂.tops,
              id ∉ whole.toList ++ q₁.list.boundVars ++ inner.binders := by
            intro id member bound
            have member : id ∈ rest.vars ++ rest.params :=
              List.mem_append_right _ (params_eq ▸ q₂.tops_subset member)
            rw [list_vars, List.append_assoc] at bound
            rcases List.mem_append.mp bound with bound | bound
            · exact wholeApart id bound id (List.mem_append_right _ member) rfl
            · exact innerApart id ((Pattern.bound_perm inner).subset bound) id member rfl
          -- Where the sublist has been spread, those in it are spread, and then those after it.
          have enters := fun j d (deeper : Deeper (Made s.counters spreads.inner.counters) i c j d)
            (depth_eq : j.depth = i.depth + 1) (receives : q₁.list.Receives items (LiteralValue made)
              i.heap j.heap (Gives spreads.inner spreads.env' j d)) =>
            first.runs (n := n + 2 * rest.count) (toSecond.later.trans later)
              (located.deeper deeper (generated_made _ _))
              ⟨by omega, few, surveyable.defined⟩ (keeps.trans deeper.keeps)
              (Pattern.topsGive_of_receives refused receives) hasInside
              (by rw [depth_eq, deeper.limit]; omega)
          have continues := fun k e (deeper : Deeper (Made s.counters first.inner.counters) i c k e)
            (depth_eq : k.depth = i.depth + 1 + inner.count) =>
            second.runs (n := n) later (located.deeper deeper (generated_made _ _))
              surveyable (keeps.trans deeper.keeps)
              (givesRest.imp fun id member value given => given.later (spreads.widens.trans first.widens)
                (beforeRest id member) deeper) hasRest
              (by rw [depth_eq, deeper.limit]; omega)
          have behindFirst : ∀ id, id ∈ whole.toList ++ (inner.vars ++ inner.params) → id ∉ rest.binders := by
            intro id member bound
            have bound := Pattern.binders_subset rest bound
            rcases List.mem_append.mp member with member | member
            · exact wholeApart id member id (List.mem_append_right _ bound) rfl
            · exact innerApart id member id bound rfl
          have alone : ∀ id, id ∈ whole.toList ++ q₁.list.boundVars → id ∉ inner.binders ++ rest.binders := by
            intro id member bound
            rw [list_vars] at member
            rcases List.mem_append.mp bound with bound | bound
            · rcases List.mem_append.mp member with member | member
              · exact wholeApart id member id (List.mem_append_left _ (inner.binders_subset bound)) rfl
              · exact listApart id member id bound rfl
            · refine behindFirst id (List.mem_append.mpr ?_) bound
              exact (List.mem_append.mp member).imp_right (inner.list_subset ·)
          have beyond := spreads.widens.proceeds.counters
          have reaches : ∀ j d, Deeper (Made s.counters spreads.inner.counters) i c j d →
              j.depth = i.depth + 1 → (∀ var ∈ whole, Gives spreads.inner spreads.env' j d var arg) →
              q₁.list.Receives items (LiteralValue made) i.heap j.heap
                (Gives spreads.inner spreads.env' j d) → q₁.InsideMatches before items →
              q₂.InsideMatches before args →
              Comes (Made spreads.inner.counters second.inner.counters)
                (execBlock (callWithin (n + 2 * rest.count + 2 * inner.count + 1))
                  (n + 2 * rest.count + 2 * inner.count + 1) d spreads.stmts) j d
                (inner.count + rest.count) n second.stmts' fun l f =>
                  (Pattern.sublist param whole q₁ q₂).InsideBinds before (LiteralValue made) before l.heap
                    (Gives second.inner second.env' l f) (arg :: args) := by
            intro j d deeper depth_eq wholeGives receives matched matchedRest
            refine ((enters j d deeper depth_eq receives).1 matched).trans
              (fun k e deeper' depth_eq' bound => ?_)
              (fun name new => new.left toSecond.counters)
              (fun name new => Made.right new toFirst.counters)
            have both := (deeper.mono fun name new => new.left toFirst.counters).trans
              (deeper'.mono fun name new => new.right beyond)
            refine ((continues k e both (by omega)).1 matchedRest).imp fun l f deeper'' boundRest => ?_
            have onward := first.widens.trans second.widens
            have farther := (deeper'.mono fun name new => new.left toSecond.counters).trans
              (deeper''.mono fun name new => new.right toFirst.counters)
            refine ⟨fun var is => (wholeGives var is).later onward
              (alone var (List.mem_append_left _ (Option.mem_toList.mpr is))) farther,
              ⟨items, spine, .of_parts refused (receives.imp ?_ (fun _ _ _ => id) ?_) (bound.imp ?_ ?_)⟩,
              boundRest⟩
            · exact fun id member value given =>
                given.later onward (alone id (List.mem_append_right _ member)) farther
            · exact fun value items fresh =>
                isFreshList_kept (isFreshList_since fresh keeps.cells) farther.keeps
            · exact fun id member value given => given.later second.widens
                (behindFirst id (by rw [← vars_eq]; simp [member])) deeper''
            · exact fun value items fresh => isFreshList_kept fresh deeper''.keeps
          refine ⟨fun inside => ?_, fun mismatch => ?_⟩
          · obtain ⟨⟨items', spine', matched⟩, matchedRest⟩ := inside
            obtain rfl := spine.unique spine'
            rw [count_eq, Nat.add_comm (inner.count + rest.count) 1]
            exact ran.ofReturn.trans (fun j d deeper depth_eq given => reaches j d deeper depth_eq
              given.1 given.2 ((Pattern.matches_iff _ _).mp matched).2 matchedRest)
              (fun name new => new.left (toFirst.counters.trans toSecond.counters))
              fun name new => new.right beyond
          · refine ran.ofReturn.fails fun j d deeper depth_eq given => ?_
            have inside := enters j d deeper depth_eq given.2
            by_cases matched : q₁.InsideMatches before items
            · refine (inside.1 matched).fails fun k e deeper' depth_eq' _ => ?_
              have both := (deeper.mono fun name new => new.left toFirst.counters).trans
                (deeper'.mono fun name new => new.right beyond)
              refine (continues k e both (by omega)).2 fun matchedRest => mismatch ?_
              exact ⟨⟨items, spine, (Pattern.matches_iff _ _).mpr ⟨refused, matched⟩⟩, matchedRest⟩
            · exact inside.2 matched

end Passing

section Induction

variable {heap : Heap} {forms body : List Value} {stmts : List Stmt} {bound : List SymbolId} {count : Nat}
  {origin : CompileState} {lists : Pattern (List Value)} {p : Pattern LambdaList}

theorem IsNew.unmarked {table : SymbolTable} (isNew : IsNew count table id)
    (enough : SymbolId.apply.index < count) : id.isLambdaKeyword = false := by
  have large := Nat.lt_of_lt_of_le enough isNew.new
  have small : ∀ marker ∈ [SymbolId.ampOptional, .ampRest, .ampBody, .ampKey, .ampAllowOtherKeys,
      .ampWhole, .ampEnvironment], marker.index < SymbolId.apply.index := by decide
  rw [← Bool.not_eq_true, SymbolId.isLambdaKeyword, List.contains_iff_mem]
  exact fun marked => absurd large (Nat.not_lt.mpr (Nat.le_of_lt (small id marked)))

/-- However a body is read, it declares none of the given variables to be dynamic. -/
def DeclaresNone (heap : Heap) (forms : List Value) (ids : List SymbolId) : Prop :=
  ∀ parsed r r', parseBody forms true r = .ok parsed r' → heap.Keeps r.image.heap →
    ∀ id ∈ ids, id ∉ parsed.declarations.specials

theorem DeclaresNone.fewer {ids more : List SymbolId} (none_ : DeclaresNone heap forms more)
    (fewer : ids ⊆ more) : DeclaresNone heap forms ids :=
  fun parsed r r' read keeps id member => none_ parsed r r' read keeps id (fewer member)

theorem Spreads.declaresNone {ids : List SymbolId} (spreads : Spreads heap lists body forms)
    (none_ : DeclaresNone heap body ids) : DeclaresNone heap forms ids := by
  induction spreads with
  | others => exact none_
  | variable_ _ _ ih => exact ih none_
  | sublist _ _ _ isSpread bindsWhole _ _ =>
      intro parsed r r' read keeps id member
      rw [parseBody_single ((bindsWhole.kept keeps).isPlain (isSpread.kept keeps))] at read
      cases read
      simp

/-- A lambda list that is read of items later on. -/
def ReadSince (origin : CompileState) (items : List Value) (list : LambdaList) : Prop :=
  ∃ (r : CompileState) (last : SymbolTable), origin.image.heap.Keeps r.image.heap ∧
    origin.image.symbols.OnlyGains r.image.symbols ∧
    IsLambdaList r.image.heap True r.image.symbols items list last

/-- A macro lambda list, and what was known of the lists in it when it was lowered. -/
structure Prepared (origin : CompileState) (lists : Pattern (List Value)) (p : Pattern LambdaList) :
    Prop where
  isPattern : ∃ items tail, IsPattern origin.image.heap Eq items tail lists
  along : lists.Along (ReadThere origin.image.heap origin.image.symbols) p
  params : p.params = lists.params
  distinct : (p.vars ++ p.params).Nodup
  constant : ∀ form ∈ p.defaults, IsConstantForm origin.image.symbols form

theorem Prepared.sublist {param : SymbolId} {whole : Option SymbolId} {inner rest : Pattern (List Value)}
    (prepared : Prepared origin (.sublist param whole inner rest) p) :
    ∃ inner' rest', p = .sublist param whole inner' rest' ∧ Prepared origin inner inner' ∧
      Prepared origin rest rest' := by
  obtain ⟨⟨_, _, isPattern⟩, along, params, distinct, constant⟩ := prepared
  cases isPattern with
  | sublist _ _ _ _ isInside isRest =>
      cases along with
      | @sublist _ _ rest' inner' _ _ _ inside along =>
          obtain ⟨rfl, paramsInside, paramsRest⟩ := inside.split_params params
          have nodup := (Pattern.sublist_perm ..).nodup_iff.mp distinct
          obtain ⟨-, nodup, -⟩ := List.nodup_append.mp (List.nodup_cons.mp nodup).2
          obtain ⟨nodupInside, nodupRest, -⟩ := List.nodup_append.mp nodup
          exact ⟨inner', rest', rfl, ⟨⟨_, _, isInside⟩, inside, paramsInside, nodupInside, fun form member =>
            constant form (List.mem_append_left _ member)⟩, ⟨_, _, isRest⟩, along, paramsRest, nodupRest,
            fun form member => constant form (List.mem_append_right _ member)⟩

/-- A lambda list that is read of the items with parameters for the sublists. -/
theorem Prepared.read (prepared : Prepared origin lists p) (closed : origin.image.heap.Closed)
    (named : ∀ id ∈ p.params, id.isLambdaKeyword = false) {r : CompileState} {list : LambdaList}
    {last : SymbolTable} (keeps : origin.image.heap.Keeps r.image.heap)
    (gains : origin.image.symbols.OnlyGains r.image.symbols)
    (isList : IsLambdaList r.image.heap True r.image.symbols lists.items list last) :
    (list.boundVars = p.list.boundVars ∧ ∀ form ∈ list.defaults, IsConstantForm r.image.symbols form) ∧
    ∃ behind, list = p.fill behind ∧ SameLists p.behind behind ∧
      ReadSince origin lists.behind behind := by
  obtain ⟨⟨_, _, isPattern⟩, along, params, distinct, constant⟩ := prepared
  have named := params ▸ named
  have same := (along.readThere isPattern named params).again closed keeps isList
  obtain ⟨behind, rfl, isBehind⟩ := isPattern.reads named isList
  refine ⟨⟨same.vars, fun form member => (constant form ?_).gains gains⟩, behind,
    (along.fill_eq params behind).symm, along.behind.again closed keeps isBehind,
    r, _, keeps, gains, isBehind⟩
  exact p.list_defaults (same.defaults ▸ member)

/-- The forms that spread the sublists of a pattern are about to be compiled. -/
structure Stage (origin : CompileState) (heap : Heap) (count : Nat) (p : Pattern LambdaList)
    (s : CompileState) (env : Environment) : Prop where
  situated : Situated s env
  applies : 0 < p.count → AppliesBuiltin s env
  keeps : heap.Keeps s.image.heap
  gains : origin.image.symbols.OnlyGains s.image.symbols
  new : ∀ id ∈ p.params, IsNew count s.image.symbols id
  lexical : ∀ id ∈ p.vars ++ p.params, IsLexical [] s id
  tops : ∀ id ∈ p.tops, ∃ host, IsHost s env id host ∧ Made {} s.counters host

theorem Stage.after {q : Pattern LambdaList} (stage : Stage origin heap count p s env)
    (applies : AppliesBuiltin s env)
    (widens : Widens bound s t env env') (situated : Situated t env') (params : q.params ⊆ p.params)
    (vars : q.vars ⊆ p.vars)
    (tops : ∀ id ∈ q.tops, ∃ host, IsHost t env' id host ∧ Made {} t.counters host) :
    Stage origin heap count q t env' where
  situated := situated
  applies _ := applies.later widens
  keeps := stage.keeps.trans widens.proceeds.heap
  gains := stage.gains.trans widens.proceeds.symbols
  new id member := (stage.new id (params member)).kept widens.proceeds.later
  lexical id member := by
    refine ⟨List.not_mem_nil, ?_⟩
    rw [widens.proceeds.bindings.globalMeaning stage.situated.ready.placed]
    refine (stage.lexical id ?_).2
    exact (List.mem_append.mp member).elim (fun inside => List.mem_append_left _ (vars inside))
      fun inside => List.mem_append_right _ (params inside)
  tops := tops

/-- The forms into which a body becomes lead to the body. -/
theorem Spreads.passes (closed : origin.image.heap.Closed) (grown : origin.image.heap.Keeps heap)
    (enough : SymbolId.apply.index < count) (spreads : Spreads heap lists body forms)
    {behind : LambdaList} (prepared : Prepared origin lists p) (same : SameLists p.behind behind)
    (reads : ReadSince origin lists.behind behind)
    (stage : Stage origin heap count p s env) (none_ : DeclaresNone heap body (p.vars ++ p.params))
    (formsAt : FormsAt heap forms s env stmts t) :
    ∃ q, p.Along SameLists q ∧ lists.Along (ReadSince origin) q ∧ q.params = p.params ∧
      q.behind = behind ∧ Nonempty (Passes heap body p q s env stmts t) := by
  induction spreads generalizing p s env stmts t behind with
  | others items body =>
      obtain ⟨-, along, -, -, -⟩ := prepared
      cases along with
      | others related =>
          exact ⟨.others behind, .others same, .others reads, rfl, rfl,
            passes_others stage.situated formsAt _ _⟩
  | variable_ var _ ih =>
      obtain ⟨⟨_, _, isPattern⟩, along, params, distinct, constant⟩ := prepared
      cases isPattern with
      | variable_ isVar isRest =>
          cases along with
          | variable_ _ along =>
              obtain ⟨q, along', readsAlong, params', behind_eq, ⟨passes⟩⟩ := ih
                ⟨⟨_, _, isRest⟩, along, params, (List.nodup_cons.mp distinct).2, constant⟩ same reads
                ⟨stage.situated, stage.applies, stage.keeps, stage.gains, stage.new,
                  fun id member => stage.lexical id (List.mem_cons_of_mem _ member), stage.tops⟩
                (none_.fewer (List.subset_cons_self _ _)) formsAt
              exact ⟨.variable_ var q, .variable_ var along', .variable_ var readsAlong, params', behind_eq,
                passes.variable_ var⟩
  | @sublist body middle forms whole innerLists restLists param list spread form isRest isInside items
      isSpread bindsWhole ihRest ihInside =>
      obtain ⟨depth, code, compiled, rfl⟩ := formsAt.single bindsWhole isSpread
      obtain ⟨inner, rest, rfl, preparedInside, preparedRest⟩ := prepared.sublist
      have applies := stage.applies (Nat.succ_pos _)
      have distinct := prepared.distinct
      have perm := Pattern.sublist_perm param whole inner rest
      obtain ⟨apart, nodup⟩ := List.nodup_cons.mp (perm.nodup_iff.mp distinct)
      obtain ⟨nodupWhole, -, wholeApart⟩ := List.nodup_append.mp nodup
      have nodupList := (List.nodup_append.mp ((Pattern.bound_perm inner).nodup_iff.mpr
        preparedInside.distinct)).1
      have within : whole.toList ++ inner.list.boundVars ⊆
          (Pattern.sublist param whole inner rest).vars ++ (Pattern.sublist param whole inner rest).params :=
        fun id member => perm.symm.subset (List.mem_cons_of_mem _ (List.mem_append.mpr
          ((List.mem_append.mp member).imp_right fun inside =>
            List.mem_append_left _ (inner.list_subset inside))))
      have named : ∀ id ∈ inner.params, id.isLambdaKeyword = false := fun id member =>
        (stage.new id (List.mem_cons_of_mem _ (List.mem_append_left _ member))).unmarked enough
      have noneForms := isInside.declaresNone (isRest.declaresNone none_)
      obtain ⟨r, lambdaList, last, proceeds, isList, ⟨spreads⟩⟩ := spreadsOver inner.list.boundVars
        stage.situated applies stage.keeps items isSpread bindsWhole
        (fun is => apart (List.mem_append_left _ (Option.mem_toList.mpr is)))
        (stage.tops param List.mem_cons_self) (stage.new param List.mem_cons_self) enough
        (fun id member => stage.lexical id (within member))
        (nodupWhole.append nodupList fun id first second => wholeApart id first id
          (List.mem_append_left _ (inner.list_subset second)) rfl)
        (noneForms.fewer fun id member => within (List.mem_append_right _ member))
        (fun r list last proceeds isList => (preparedInside.read closed named
          (grown.trans (stage.keeps.trans proceeds.heap)) (stage.gains.trans proceeds.symbols)
          isList).1) compiled
      obtain ⟨⟨list_vars, -⟩, innerBehind, rfl, sameInside, readsInside⟩ := preparedInside.read closed named
        (grown.trans (stage.keeps.trans proceeds.heap)) (stage.gains.trans proceeds.symbols) isList
      have innerVars : inner.vars ⊆ (Pattern.sublist param whole inner rest).vars := fun id member => by
        simp [Pattern.vars, member]
      have innerParams : inner.params ⊆ (Pattern.sublist param whole inner rest).params :=
        fun id member => by simp [Pattern.params, member]
      have restVars : rest.vars ⊆ (Pattern.sublist param whole inner rest).vars := fun id member => by
        simp [Pattern.vars, member]
      have restParams : rest.params ⊆ (Pattern.sublist param whole inner rest).params :=
        fun id member => by simp [Pattern.params, member]
      obtain ⟨q₁, along₁, reads₁, params₁, behind₁, ⟨first⟩⟩ := ihInside preparedInside sameInside readsInside
        (stage.after applies spreads.widens spreads.situated innerParams innerVars
          fun id member => spreads.hosts id (list_vars ▸ inner.tops_bound member))
        ((isRest.declaresNone none_).fewer fun id member =>
          List.mem_append.mpr ((List.mem_append.mp member).imp (innerVars ·) (innerParams ·)))
        spreads.formsAt
      have list_eq : q₁.list = inner.fill innerBehind := by
        rw [← q₁.fill_behind, behind₁, along₁.fill_eq params₁]
      have before := spreads.widens.trans first.widens
      obtain ⟨q₂, along₂, reads₂, params₂, behind₂, ⟨second⟩⟩ := ihRest preparedRest same reads
        (stage.after applies before first.situated restParams restVars fun id member => by
          obtain ⟨host, isHost, made⟩ := stage.tops id (List.mem_cons_of_mem _ member)
          refine ⟨host, (before.isHost fun bound => ?_).mpr isHost, made.left before.proceeds.counters⟩
          rw [list_vars, List.append_assoc] at bound
          have inside : id ∈ whole.toList ++ (inner.vars ++ inner.params) :=
            List.mem_append.mpr ((List.mem_append.mp bound).imp_right
              ((Pattern.bound_perm inner).subset ·))
          have outside : id ∈ rest.vars ++ rest.params := List.mem_append_right _ (rest.tops_subset member)
          rw [← List.append_assoc] at nodup
          exact (List.nodup_append.mp nodup).2.2 id inside id outside rfl)
        (none_.fewer fun id member =>
          List.mem_append.mpr ((List.mem_append.mp member).imp (restVars ·) (restParams ·))) first.formsAt
      obtain ⟨passes⟩ := Passes.sublist spreads first second list_eq list_vars along₁.vars_eq params₂ distinct
      refine ⟨.sublist param whole q₁ q₂, .sublist param param whole along₁ along₂,
        .sublist param param whole reads₁ reads₂, ?_, behind₂, ⟨passes⟩⟩
      rw [Pattern.params, params₁, params₂, Pattern.params]

end Induction

end LispScript.Compiler
