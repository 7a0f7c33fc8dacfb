import LispScript.Proofs.Lambdas

/-!
Functions that forms name, choices, assignments, and forms that bind names in their bodies.
-/

namespace LispScript.Discipline

open Script Machine Compiler

section References

variable {W : World} {s : CompileState} {compile : FormCompiler} {context : Context}
  {designator : Value} {items : List Value}

theorem Built.isLambdaExpression (ok : CompilerOk W s) (datum : W.Datum designator) :
    Built W s (Compiler.isLambdaExpression designator) fun _ _ _ => True := by
  refine Built.bind (Built.carOf? ok datum) fun _ _ _ _ ok₁ _ => ?_
  split <;> exact Built.gives ok₁ trivial

theorem Built.badFunctionName {post : World → CompileState → α → Prop} (ok : CompilerOk W s)
    (designator : Value) :
    Built W s (Compiler.badFunctionName designator : Compile α) post :=
  Built.described (Built.fails ok trivial)

/-- Code that can be called wherever the environment is served. -/
abbrev Calls (env : Environment) (s s' : CompileState) (callee : Expr) : Prop :=
  Everywhere env s s' fun frame => ∀ acceptor manyValues args,
    frame.Accepts acceptor manyValues → (∀ arg ∈ args, Derivable frame (.expr arg .datum)) →
      Derivable frame (.expr (.call callee (acceptor :: args)) (.result manyValues))

/-- What is no function literal is called as a value. -/
theorem Codes.calls {env : Environment} {s' : CompileState} {callee : Expr}
    (codes : Codes env s s' callee .datum) (named : IsNamed callee) :
    Calls env s s' callee :=
  codes.mono fun _ function _ _ _ accepts data => .call named accepts function data

/-- A function in code: it can be held as a value, and called where it stands. -/
structure IsFunction (env : Environment) (s s' : CompileState) (code : Expr) : Prop where
  codes : Codes env s s' code .datum
  calls : Calls env s s' code

theorem IsFunction.widen {env : Environment} {s₁ s₂ s' : CompileState} {code : Expr}
    (function : IsFunction env s₁ s₂ code) (before : Progress s s₁) (after : Progress s₂ s') :
    IsFunction env s s' code :=
  ⟨function.codes.widen before after, function.calls.widen before after⟩

theorem Built.globalFunction (ok : CompilerOk W s) (env : Environment) (id : SymbolId) :
    Built W s (Compiler.globalFunction id) fun _ s' code => IsFunction env s s' code := by
  refine Built.bind (Built.symbolLiteral ok id) fun _ s₁ symbol _ ok₁ held => ?_
  have codes : Codes env s s₁ (.callPrimitive .symbolFunction [symbol]) .datum := by
    intro late frame progress serves
    refine .primitive rfl ?_
    simpa using held.literal.datum.codes late frame progress serves
  exact Built.gives ok₁ ⟨codes, codes.calls fun _ _ => Expr.noConfusion⟩

theorem Built.namedFunction (ok : CompilerOk W s) (env : EnvOk W s context.env)
    (designator : Value) (id : SymbolId) :
    Built W s (Compiler.namedFunction context designator id) fun _ s' code =>
      IsFunction context.env s s' code := by
  refine Built.bind (Built.resolve ok env _ _) fun W₁ s₁ binding? first ok₁ resolved => ?_
  split
  · exact Built.badFunctionName ok₁ _
  · rename_i binding
    have found := resolved binding rfl
    refine Built.bind (Built.markUsed ok₁ found.ok) fun W₂ s₂ _ second ok₂ _ => ?_
    split
    · rename_i name reference
      have codes : Codes context.env s s₂ (.ident name) .datum := fun late frame _ serves =>
        .ident (found.host reference serves).known
      exact Built.gives ok₂ ⟨codes, codes.calls fun _ _ => Expr.noConfusion⟩
    · refine Builds.mono (Built.globalFunction ok₂ context.env id) fun _ _ code function => ?_
      exact function.widen (first.trans second).progress (Progress.refl _)
    · exact Built.badFunctionName ok₂ _

theorem MakesFunction.isFunction {env : Environment} {named : Bool} {s' : CompileState}
    {code : Expr} (makes : MakesFunction env named s s' code) :
    IsFunction env s s' code :=
  ⟨makes.codes, makes.call⟩

theorem Built.compileLambdaParts (forms : CompilesForms compile) (ok : CompilerOk W s)
    (env : EnvOk W s context.env) (name : Option SymbolId) (data : W.Data items) :
    Built W s (Compiler.compileLambdaParts compile context designator name items) fun _ s' code =>
      IsFunction context.env s s' code := by
  cases items with
  | nil => exact Built.malformed ok _ _
  | cons list body =>
      obtain ⟨datum, data⟩ := World.data_cons.mp data
      exact (Built.compileLambda forms ok env datum data name).mono fun _ _ _ makes =>
        makes.isFunction

theorem Built.compileLambdaExpression (forms : CompilesForms compile) (ok : CompilerOk W s)
    (env : EnvOk W s context.env) (datum : W.Datum designator) :
    Built W s (Compiler.compileLambdaExpression compile context designator) fun _ s' code =>
      IsFunction context.env s s' code := by
  refine Built.ofHeap ?_
  split
  · exact Built.malformed ok _ _
  · rename_i items found
    have data : ∀ n, W.Data (items.drop n) := fun n item member =>
      listItems_data ok.describes datum found item (List.mem_of_mem_drop member)
    split
    · split
      · exact Built.compileLambdaParts forms ok env _ (data 2)
      · exact Built.malformed ok _ _
    · exact Built.compileLambdaParts forms ok env _ (data 1)

theorem Built.functionReference (forms : CompilesForms compile) (ok : CompilerOk W s)
    (env : EnvOk W s context.env) (datum : W.Datum designator) :
    Built W s (Compiler.functionReference compile context designator) fun _ s' code =>
      IsFunction context.env s s' code := by
  unfold Compiler.functionReference
  split
  · exact Built.namedFunction ok env _ _
  · refine Built.bind (Built.isLambdaExpression ok datum) fun W₁ s₁ isLambda first ok₁ _ => ?_
    split
    · refine (Built.compileLambdaExpression forms ok₁ (env.further first) (first.datum datum)).mono
        fun _ _ _ function => ?_
      exact function.widen first.progress (Progress.refl _)
    · exact Built.badFunctionName ok₁ _
  · exact Built.badFunctionName ok _

end References

section Choices

variable {W : World} {s : CompileState} {compile : FormCompiler} {context : Context} {form : Value}
  {args : List Value}

/-- Any item of a list of data, and what stands for one that is not there. -/
theorem World.Data.headD (data : W.Data args) : W.Datum (args.headD .nil) := by
  cases args with
  | nil => trivial
  | cons value rest => exact data value List.mem_cons_self

theorem Built.compileQuote (ok : CompilerOk W s) :
    Built W s (Compiler.compileQuote form args) fun _ s' code => Compiles context s s' code := by
  refine Built.bind (Built.expectArgs ok _ _ _ _) fun _ _ _ _ ok₁ _ => ?_
  exact (Built.literal ok₁ _).mono fun _ _ _ literal => Codes.compiles literal.codes

theorem Built.compileFunction (forms : CompilesForms compile) (ok : CompilerOk W s)
    (env : EnvOk W s context.env) (data : W.Data args) :
    Built W s (Compiler.compileFunction compile context form args) fun _ s' code =>
      Compiles context s s' code := by
  refine Built.bind (Built.expectArgs ok _ _ _ _) fun _ _ _ first ok₁ _ => ?_
  refine (Built.functionReference forms ok₁ (env.further first) (first.datum data.headD)).mono
    fun _ _ _ function => ?_
  exact Codes.compiles (function.codes.widen first.progress (Progress.refl _))

theorem Built.compileIf (forms : CompilesForms compile) (ok : CompilerOk W s)
    (env : EnvOk W s context.env) (data : W.Data args) :
    Built W s (Compiler.compileIf compile context form args) fun _ s' code =>
      Compiles context s s' code := by
  refine Built.bind (Built.expectArgs ok _ _ _ _) fun W₁ s₁ _ step₁ ok₁ _ => ?_
  split
  · rename_i test yes rest
    obtain ⟨datumTest, datumYes, dataRest⟩ : W₁.Datum test ∧ W₁.Datum yes ∧ W₁.Data rest := by
      simpa [World.data_cons] using step₁.data data
    have env₁ := env.further step₁
    refine Built.bind (Built.compileSingle forms ok₁ env₁ datumTest)
      fun W₂ s₂ test step₂ ok₂ codes => ?_
    refine Built.bind (forms W₂ s₂ context yes ok₂ (env₁.further step₂) (step₂.datum datumYes))
      fun W₃ s₃ yes step₃ ok₃ compilesYes => ?_
    have chosen : ∀ W₄ s₄ no, Further W₃ s₃ W₄ s₄ → CompilerOk W₄ s₄ →
        Compiles context s₃ s₄ no →
        Built W₄ s₄ (pure (.cond (truthTest test) yes no)) fun _ s' code =>
          Compiles context s s' code := by
      intro W₄ s₄ no step₄ ok₄ compilesNo
      refine Built.gives ok₄ fun late frame progress serves manyValues accepts => ?_
      have test_datum := codes.widen step₁.progress (step₃.trans step₄).progress late frame
        progress serves
      have yes_derives := compilesYes.widen (step₁.trans step₂).progress step₄.progress late frame
        progress serves manyValues accepts
      have no_derives := compilesNo.widen ((step₁.trans step₂).trans step₃).progress
        (Progress.refl _) late frame progress serves manyValues accepts
      exact .choose (by decide) test_datum (.widen Kind.symbol_within_datum .nil) yes_derives
        no_derives
    split
    · rename_i no _
      refine Built.bind (forms W₃ s₃ context no ok₃ ((env₁.further step₂).further step₃)
        ((step₂.trans step₃).datum (dataRest _ List.mem_cons_self)))
        fun W₄ s₄ no step₄ ok₄ compilesNo => ?_
      exact chosen W₄ s₄ no step₄ ok₄ compilesNo
    · exact chosen W₃ s₃ .nil (Further.refl _ _) ok₃ fun late frame _ _ manyValues _ =>
        Derivable.nil_result frame manyValues
  · exact Built.gives ok₁ fun late frame _ _ manyValues _ => Derivable.nil_result frame manyValues

theorem Built.compileAssignments (forms : CompilesForms compile) (ok : CompilerOk W s)
    (env : EnvOk W s context.env) (data : W.Data args) :
    Built W s (Compiler.compileAssignments compile context form args) fun _ s' codes =>
      CodesAll context.env s s' codes := by
  fun_induction Compiler.compileAssignments compile context form args generalizing W s with
  | case1 target value rest ih =>
      obtain ⟨datumTarget, datumValue, dataRest⟩ :
          W.Datum target ∧ W.Datum value ∧ W.Data rest := by
        simpa [World.data_cons] using data
      refine Built.bind (Built.symbolArg ok _ _ _) fun W₁ s₁ id step₁ ok₁ _ => ?_
      refine Built.bind (Built.variablePlace ok₁ (env.further step₁) id)
        fun W₂ s₂ place step₂ ok₂ isPlace => ?_
      refine Built.bind (Built.compileSingle forms ok₂ (env.further (step₁.trans step₂))
        ((step₁.trans step₂).datum datumValue)) fun W₃ s₃ value step₃ ok₃ codes => ?_
      have before := (step₁.trans step₂).trans step₃
      refine Built.bind (ih ok₃ (env.further before) (before.data dataRest))
        fun W₄ s₄ others step₄ ok₄ all => Built.gives ok₄ ?_
      refine List.forall_mem_cons.mpr ⟨fun late frame progress serves => ?_, fun code member =>
        (all code member).widen before.progress (Progress.refl _)⟩
      exact isPlace.widen step₁.progress (step₃.trans step₄).progress late frame progress serves _
        (codes.widen (step₁.trans step₂).progress step₄.progress late frame progress serves)
  | case2 => exact Built.gives ok nofun

theorem Built.compileSetq (forms : CompilesForms compile) (ok : CompilerOk W s)
    (env : EnvOk W s context.env) (data : W.Data args) :
    Built W s (Compiler.compileSetq compile context form args) fun _ s' code =>
      Compiles context s s' code := by
  unfold Compiler.compileSetq
  split
  · exact Built.malformed_bind ok _ _
  · refine Built.bind (Built.compileAssignments forms ok env data) fun W₁ s₁ codes _ ok₁ all => ?_
    split
    · exact Built.gives ok₁ fun late frame _ _ manyValues _ => Derivable.nil_result frame manyValues
    · exact Built.gives ok₁ (Codes.compiles (all _ List.mem_cons_self))
    · rename_i codes some_ _
      refine Built.gives ok₁ (Codes.compiles fun late frame progress serves => ?_)
      have data := all.everywhere late frame progress serves
      rw [← List.dropLast_concat_getLast some_]
      exact .comma (fun e member => data e (List.mem_of_mem_dropLast member))
        (data _ (List.getLast_mem some_))

theorem Built.compileThe (forms : CompilesForms compile) (ok : CompilerOk W s)
    (env : EnvOk W s context.env) (data : W.Data args) :
    Built W s (Compiler.compileThe compile context form args) fun _ s' code =>
      Compiles context s s' code := by
  refine Built.bind (Built.expectArgs ok _ _ _ _) fun W₁ s₁ _ step₁ ok₁ _ => ?_
  split
  · rename_i type value
    refine (forms W₁ s₁ context value ok₁ (env.further step₁)
      (step₁.datum (data value (by simp)))).mono fun _ _ _ compiles => ?_
    exact compiles.widen step₁.progress (Progress.refl _)
  · exact Built.gives ok₁ fun late frame _ _ manyValues _ => Derivable.nil_result frame manyValues

end Choices

section Statements

variable {frame : Frame} {context : Context} {s s' : CompileState} {stmts : List Stmt} {code : Expr}
  {kind : Kind}

theorem Frame.Accepts.inside {acceptor : Expr} {manyValues : Bool}
    (accepts : frame.Accepts acceptor manyValues) :
    frame.inside.Accepts acceptor manyValues :=
  accepts.imp_right fun named => ⟨named.1, by simpa [Frame.inside] using named.2⟩

/-- Nothing but the rule for it allows a lone `return`, except that no function at all can be
defined before it. -/
theorem Derivable.of_ret (derivable : Derivable frame (.returns [.ret code] kind)) :
    Derivable frame (.expr code kind) := by
  generalize same : Judgement.returns [.ret code] kind = judgement at derivable
  induction derivable with
  | ret value => cases same; exact value
  | @defineFunctions _ _ _ locals _ _ _ _ _ _ _ ih =>
      cases locals with
      | nil => simpa [Frame.bindAll] using ih same
      | cons => cases same
  | _ => cases same

theorem Delivers.statements (delivers : Delivers context s s' stmts) :
    Compiles context s s' (statementsExpr stmts) := by
  intro late frame progress serves manyValues accepts
  unfold statementsExpr
  split
  · exact (delivers late frame progress serves manyValues accepts).of_ret
  · exact .wrap (delivers late frame.inside progress (Frame.ServesBut.inside serves) manyValues
      accepts.inside)

end Statements

section Parsing

variable {W : World} {s : CompileState} {context : Context} {form list : Value}

theorem Built.parseBinding (ok : CompilerOk W s) {spec : Value} (datum : W.Datum spec) :
    Built W s (Compiler.parseBinding form spec) fun W' _ result => W'.Datum result.2 := by
  have named : ∀ {W s} (name : Value), CompilerOk W s →
      Built W s (do return (← Compiler.symbolArg form name "bound name", Value.nil))
        fun W' _ result => W'.Datum result.2 := fun name ok =>
    Built.bind (Built.symbolArg ok _ _ _) fun _ _ _ _ ok₁ _ => Built.gives ok₁ trivial
  unfold Compiler.parseBinding
  split
  · exact named _ ok
  · exact named _ ok
  · refine Built.bind (Built.listArg ok _ datum _) fun W₁ s₁ items _ ok₁ data => ?_
    split
    · exact named _ ok₁
    · refine Built.bind (Built.symbolArg ok₁ _ _ _) fun _ _ _ further ok₂ _ => ?_
      exact Built.gives ok₂ (further.datum (data _ (by simp)))
    · exact Built.malformed ok₁ _ _
  · exact Built.malformed ok _ _

theorem Built.parseBindings (ok : CompilerOk W s) (env : EnvOk W s context.env)
    (datum : W.Datum list) :
    Built W s (Compiler.parseBindings form context list) fun W' _ bindings =>
      ∀ binding ∈ bindings, W'.Datum binding.2 := by
  refine Built.bind (Built.listArg ok _ datum _) fun W₁ s₁ specs first ok₁ data => ?_
  refine (Built.mapM (fun W s => EnvOk W s context.env ∧ W.Data specs)
    (fun _ _ W' _ binding => W'.Datum binding.2) ok₁ ⟨env.further first, data⟩ ?_ ?_ ?_).mono
    fun _ _ _ all => (forall_of_forall₂ all fun _ _ datum => datum).2
  · exact fun _ _ _ _ known further => ⟨known.1.further further, further.data known.2⟩
  · exact fun _ _ _ _ _ _ _ _ _ datum further => further.datum datum
  · intro spec member W s ok known
    refine Built.bind (Built.parseBinding ok (known.2 spec member)) fun W' s' result step ok' datum => ?_
    obtain ⟨id, init⟩ := result
    refine Built.bind (Built.checkBindable ok' (known.1.further step) id)
      fun _ _ _ further ok'' _ => ?_
    exact Built.gives ok'' (further.datum datum)

/-- The parts of a definition are data. -/
structure DefinitionOk (W : World) (definition : LocalDefinition) : Prop where
  list : W.Datum definition.lambdaList
  body : W.Data definition.body

theorem DefinitionOk.further {W' : World} {s' : CompileState} {definition : LocalDefinition}
    (ok : DefinitionOk W definition) (further : Further W s W' s') :
    DefinitionOk W' definition :=
  ⟨further.datum ok.list, further.data ok.body⟩

theorem Built.parseDefinition (ok : CompilerOk W s) {definition : Value}
    (datum : W.Datum definition) :
    Built W s (Compiler.parseDefinition form definition) fun W' _ => DefinitionOk W' := by
  refine Built.bind (Built.listArg ok _ datum _) fun W₁ s₁ items _ ok₁ data => ?_
  split
  · obtain ⟨-, dataRest⟩ := World.data_cons.mp data
    obtain ⟨datumList, dataBody⟩ := World.data_cons.mp dataRest
    refine Built.bind (Built.symbolArg ok₁ _ _ _) fun _ _ _ further ok₂ _ => ?_
    exact Built.gives ok₂ ⟨further.datum datumList, further.data dataBody⟩
  · exact Built.malformed ok₁ _ _

theorem Built.parseDefinitions (ok : CompilerOk W s) (datum : W.Datum list) :
    Built W s (Compiler.parseDefinitions form list) fun W' _ definitions =>
      ∀ definition ∈ definitions, DefinitionOk W' definition := by
  refine Built.bind (Built.listArg ok _ datum _) fun W₁ s₁ items first ok₁ data => ?_
  refine (Built.mapM (fun W _ => W.Data items) (fun _ _ W' _ => DefinitionOk W') ok₁ data
    ?_ ?_ ?_).mono fun _ _ _ all => (forall_of_forall₂ all fun _ _ definition => definition).2
  · exact fun _ _ _ _ data further => further.data data
  · exact fun _ _ _ _ _ _ _ _ _ definition further => definition.further further
  · exact fun item member _ _ ok data => Built.parseDefinition ok (data item member)

end Parsing

section Variables

variable {W : World} {s before : CompileState} {compile : FormCompiler} {context : Context}
  {form : Value} {args : List Value}

/-- A body after the statements that bind names for it. -/
theorem Built.finishBinding (forms : CompilesForms compile) (ok : CompilerOk W s)
    {prologue : Prologue} {env : Environment} (known : EnvOk W s env)
    (goes : Goes [] before s { env := context.env } { env, prologue } (fun _ => True)
      fun _ => True) {body : Body} (data : W.Data body.forms) (bound : List SymbolId) :
    Built W s (Compiler.finishBinding compile context prologue env body bound)
      fun _ s' code => Compiles context before s' code := by
  refine Built.bind (Built.applyFreeDeclarations ok known _ _) fun W₁ s₁ env₁ step₁ ok₁ stands => ?_
  have known₁ : EnvOk W₁ s₁ (context.withEnv env₁).env := stands.ok
  refine Built.bind (Built.compileBody forms ok₁ known₁ (step₁.data data))
    fun W₂ s₂ stmts step₂ ok₂ delivers => Built.gives ok₂ (Delivers.statements ?_)
  obtain ⟨around, finish, derives⟩ := goes
  intro late frame progress serves manyValues accepts
  rw [finish, Prologue.finish_empty]
  refine derives late frame stmts _ ((step₁.trans step₂).progress.trans progress) serves trivial
    fun frame' serves' later _ => ?_
  refine delivers late frame' progress ?_ manyValues (later.accepts accepts)
  exact (serves'.later step₁.progress.counters).noMore stands.noMore

theorem Built.defineInits (forms : CompilesForms compile) (ok : CompilerOk W s)
    (env : EnvOk W s context.env) (prologue : Prologue) {bindings : List (SymbolId × Value)}
    (data : ∀ binding ∈ bindings, W.Datum binding.2) :
    Built W s (Compiler.defineInits compile context prologue bindings) fun _ s' result =>
      Goes [] s s' { env := context.env, prologue } { env := context.env, prologue := result.1 }
        (fun _ => True) fun frame => ∀ binding ∈ result.2, frame.Has binding.2 .datum := by
  induction bindings generalizing W s prologue with
  | nil => exact Built.gives ok (Goes.refl fun _ _ => nofun)
  | cons binding rest ih =>
      obtain ⟨id, init⟩ := binding
      obtain ⟨datum, others⟩ := List.forall_mem_cons.mp data
      refine Built.bind (Built.freshVariableFor ok id) fun W₁ s₁ host step₁ ok₁ made => ?_
      refine Built.bind (Built.compileSingle forms ok₁ (env.further step₁) (step₁.datum datum))
        fun W₂ s₂ value step₂ ok₂ codes => ?_
      have before₂ := step₁.trans step₂
      refine Built.bind (ih ok₂ (env.further before₂) (prologue.add [.define host value])
        fun other member => before₂.datum (others other member))
        fun W₃ s₃ result step₃ ok₃ goes => Built.gives ok₃ ?_
      have defined : Goes [] s s₂ { env := context.env, prologue }
          { env := context.env, prologue := prologue.add [.define host value] } (fun _ => True)
          fun frame => frame.Has host .datum :=
        Goes.define (made.left step₂.progress.counters) List.not_mem_nil before₂.progress
          fun late frame last serves _ =>
            codes late frame last (serves.later step₁.progress.counters)
      refine defined.trans (goes.adapt (fun _ _ => trivial) fun _ _ later has others => ?_)
        step₃.progress fun _ _ _ _ has => has
      exact List.forall_mem_cons.mpr ⟨later.has has, others⟩

theorem Built.bindHosts (ok : CompilerOk W s) {head : Head} (env : HeadOk W s head)
    (specials : List SymbolId) (hosts : List (SymbolId × String)) :
    Built W s (Compiler.bindHosts specials head hosts) fun W' s' head' =>
      HeadOk W' s' head' ∧
        Goes [] s s' head head' (fun frame => ∀ binding ∈ hosts, frame.Has binding.2 .datum)
          fun _ => True := by
  induction hosts generalizing W s head with
  | nil => exact Built.gives ok ⟨env, Goes.refl fun _ _ => trivial⟩
  | cons binding rest ih =>
      obtain ⟨id, host⟩ := binding
      refine Built.bind (Built.bindParameter ok env specials id host)
        fun W₁ s₁ head₁ _ ok₁ bound => ?_
      refine Builds.since (ih ok₁ bound.1) fun W₂ s₂ head₂ step₂ others => ⟨others.1, ?_⟩
      refine ((bound.2 [] nofun).adapt (fun _ has => ?_) fun _ _ later has _ => ?_).trans others.2
        step₂.progress fun _ _ _ _ has => has
      · exact has (id, host) List.mem_cons_self
      · exact fun other member => later.has (has other (List.mem_cons_of_mem _ member))

theorem Built.bindInits (forms : CompilesForms compile) (ok : CompilerOk W s) {head : Head}
    (env : HeadOk W s head) (specials : List SymbolId) {bindings : List (SymbolId × Value)}
    (data : ∀ binding ∈ bindings, W.Datum binding.2) :
    Built W s (Compiler.bindInits compile context specials head bindings) fun W' s' head' =>
      HeadOk W' s' head' ∧ Goes [] s s' head head' (fun _ => True) fun _ => True := by
  induction bindings generalizing W s head with
  | nil => exact Built.gives ok ⟨env, Goes.refl fun _ _ => trivial⟩
  | cons binding rest ih =>
      obtain ⟨id, init⟩ := binding
      obtain ⟨datum, others⟩ := List.forall_mem_cons.mp data
      refine Built.bind (Built.freshVariableFor ok id) fun W₁ s₁ host step₁ ok₁ made => ?_
      have env₁ : EnvOk W₁ s₁ (context.withEnv head.env).env := env.further step₁
      refine Built.bind (Built.compileSingle forms ok₁ env₁ (step₁.datum datum))
        fun W₂ s₂ value step₂ ok₂ codes => ?_
      have before₂ := step₁.trans step₂
      have env₂ : HeadOk W₂ s₂ (head.add [.define host value]) := env.further before₂
      have defined : Goes [] s s₂ head (head.add [.define host value]) (fun _ => True)
          fun frame => frame.Has host .datum :=
        Goes.define (made.left step₂.progress.counters) List.not_mem_nil before₂.progress
          fun late frame last serves _ =>
            codes late frame last (serves.later step₁.progress.counters)
      refine Built.bind (Built.bindParameter ok₂ env₂ specials id host)
        fun W₃ s₃ head₃ step₃ ok₃ bound => ?_
      have data₃ : ∀ binding ∈ rest, W₃.Datum binding.2 := fun other member =>
        (before₂.trans step₃).datum (others other member)
      refine Builds.since (ih ok₃ bound.1 data₃) fun W₄ s₄ head₄ step₄ held => ⟨held.1, ?_⟩
      refine (defined.trans (bound.2 [] nofun) step₃.progress fun _ _ _ _ has => has).trans held.2
        step₄.progress fun _ _ _ _ _ => trivial

theorem Built.compileLet (forms : CompilesForms compile) (ok : CompilerOk W s)
    (env : EnvOk W s context.env) (data : W.Data args) :
    Built W s (Compiler.compileLet compile context form args) fun _ s' code =>
      Compiles context s s' code := by
  refine Built.bind (Built.expectArgs ok _ _ _ _) fun W₁ s₁ _ step₁ ok₁ _ => ?_
  refine Built.bind (Built.parseBindings ok₁ (env.further step₁) (step₁.datum data.headD))
    fun W₂ s₂ bindings step₂ ok₂ dataInits => ?_
  have before₂ := step₁.trans step₂
  refine Built.bind (Built.parseBody ok₂ (before₂.data data.tail) false)
    fun W₃ s₃ body step₃ ok₃ dataForms => ?_
  have before₃ := before₂.trans step₃
  refine Built.bind (Built.defineInits forms ok₃ (env.further before₃) {} fun binding member =>
    step₃.datum (dataInits binding member)) fun W₄ s₄ result step₄ ok₄ defined => ?_
  obtain ⟨prologue, hosts⟩ := result
  have env₄ : HeadOk W₄ s₄ { env := context.env, prologue } := env.further (before₃.trans step₄)
  refine Built.bind (Built.bindHosts ok₄ env₄ body.declarations.specials hosts)
    fun W₅ s₅ head step₅ ok₅ bound => ?_
  have goes := (defined.trans bound.2 step₅.progress fun _ _ _ _ has => has)
  refine Builds.mono (Built.finishBinding forms ok₅ bound.1 goes
    ((step₄.trans step₅).data dataForms) _) fun _ _ _ compiles => ?_
  exact compiles.widen before₃.progress (Progress.refl _)

theorem Built.compileLetStar (forms : CompilesForms compile) (ok : CompilerOk W s)
    (env : EnvOk W s context.env) (data : W.Data args) :
    Built W s (Compiler.compileLetStar compile context form args) fun _ s' code =>
      Compiles context s s' code := by
  refine Built.bind (Built.expectArgs ok _ _ _ _) fun W₁ s₁ _ step₁ ok₁ _ => ?_
  refine Built.bind (Built.parseBindings ok₁ (env.further step₁) (step₁.datum data.headD))
    fun W₂ s₂ bindings step₂ ok₂ dataInits => ?_
  have before₂ := step₁.trans step₂
  refine Built.bind (Built.parseBody ok₂ (before₂.data data.tail) false)
    fun W₃ s₃ body step₃ ok₃ dataForms => ?_
  have before₃ := before₂.trans step₃
  have env₃ : HeadOk W₃ s₃ { env := context.env } := env.further before₃
  refine Built.bind (Built.bindInits forms ok₃ env₃ body.declarations.specials fun binding member =>
    step₃.datum (dataInits binding member)) fun W₄ s₄ head step₄ ok₄ bound => ?_
  refine Builds.mono (Built.finishBinding forms ok₄ bound.1 bound.2
    (step₄.data dataForms) _) fun _ _ _ compiles => ?_
  exact compiles.widen before₃.progress (Progress.refl _)

end Variables

section Functions

variable {W : World} {s s₁ s₂ : CompileState} {compile : FormCompiler} {context : Context}
  {env env' : Environment} {form : Value} {args : List Value}
  {hosts : List (LocalDefinition × String)}

theorem NewHosts.left {c c' c'' : Counters} {n : Nat} {hosts : List String}
    (new : NewHosts c c' n hosts) (leads : c'.Leads c'') :
    NewHosts c c'' n hosts :=
  ⟨fun host member => (new.made host member).left leads, new.nodup, new.length⟩

theorem Built.functionHosts (ok : CompilerOk W s) (definitions : List LocalDefinition) :
    Built W s (definitions.mapM fun definition => do
      return (definition, ← Compiler.freshVariableFor definition.name)) fun _ s' hosts =>
      NewHosts s.counters s'.counters definitions.length (hosts.map Prod.snd) ∧
        hosts.map Prod.fst = definitions := by
  induction definitions generalizing W s with
  | nil =>
      rw [List.mapM_nil]
      exact Built.gives ok ⟨.nil _ _, rfl⟩
  | cons definition rest ih =>
      rw [List.mapM_cons]
      have hosted : Built W s (do
          return (definition, ← Compiler.freshVariableFor definition.name)) fun _ s' part =>
          NewHosts s.counters s'.counters 1 [part.2] ∧ part.1 = definition :=
        Built.bind (Built.freshVariableFor ok _) fun _ _ _ _ ok₁ made =>
          Built.gives ok₁ ⟨.one made, rfl⟩
      refine Built.bind hosted fun W₁ s₁ part step₁ ok₁ first => ?_
      refine Built.bind (ih ok₁) fun W₂ s₂ parts step₂ ok₂ others => Built.gives ok₂ ⟨?_, ?_⟩
      · rw [List.length_cons, Nat.add_comm]
        exact first.1.append others.1 step₁.progress.counters step₂.progress.counters
      · rw [List.map_cons, first.2, others.2]

/-- The names of the definitions, bound to script variables. -/
structure BindsHosts (env : Environment) (hosts : List (LocalDefinition × String)) (W : World)
    (s : CompileState) (env' : Environment) : Prop where
  ok : EnvOk W s env'
  asks : ∀ late frame, (∀ binding ∈ env, Asks late frame binding) →
    (∀ part ∈ hosts, frame.Has part.2 .datum) → ∀ binding ∈ env', Asks late frame binding

theorem Built.bindFunctions (ok : CompilerOk W s) (known : EnvOk W s env)
    (hosts : List (LocalDefinition × String)) :
    Built W s (Compiler.bindFunctions env hosts) (BindsHosts env hosts) := by
  refine Built.foldlM ok ⟨known, fun _ _ asks _ => asks⟩ fun part member W₁ s₁ env₁ ok₁ binds => ?_
  obtain ⟨definition, host⟩ := part
  have plain : ReferenceOk W₁ (.host host) := trivial
  refine Built.bind (Built.newBinding ok₁ _ _ plain) fun W₂ s₂ binding step ok₂ new => ?_
  refine Built.gives ok₂ ⟨fun other inside => ?_, fun late frame asks has other inside => ?_⟩
  · rcases List.mem_cons.mp inside with rfl | inside
    · exact new.ok
    · exact (binds.ok other inside).further step
  · rcases List.mem_cons.mp inside with rfl | inside
    · rw [Asks, new.reference_eq]
      exact has _ member
    · exact binds.asks late frame asks has other inside

/-- The functions of a form, compiled where the given environment is in force. -/
structure DefinesFunctions (env : Environment) (s s' : CompileState) (hosts : List String)
    (locals : List LocalFunction) : Prop where
  hosts : locals.map (·.host) = hosts
  holders : ∀ f ∈ locals, f.holder ∉ reservedNames
  bodies : ∀ f ∈ locals, Everywhere env s s' fun frame => frame.IsBody f.hosts f.body

theorem Built.localFunctions (forms : CompilesForms compile) (ok : CompilerOk W s)
    (known : EnvOk W s context.env) (definitions : ∀ part ∈ hosts, DefinitionOk W part.1) :
    Built W s (hosts.mapM fun (definition, host) => do
      let function ← Compiler.compileLambda compile context definition.lambdaList definition.body
        (some definition.name)
      return Stmt.define host function) fun _ s' stmts =>
      ∃ locals : List LocalFunction, stmts = locals.map (·.code) ∧
        DefinesFunctions context.env s s' (hosts.map Prod.snd) locals := by
  induction hosts generalizing W s with
  | nil =>
      rw [List.mapM_nil]
      exact Built.gives ok ⟨[], rfl, rfl, nofun, nofun⟩
  | cons part rest ih =>
      obtain ⟨definition, host⟩ := part
      obtain ⟨definitionOk, others⟩ := List.forall_mem_cons.mp definitions
      rw [List.mapM_cons]
      have defined : Built W s (do
          let function ← Compiler.compileLambda compile context definition.lambdaList
            definition.body (some definition.name)
          return Stmt.define host function) fun _ s' stmt =>
          ∃ f : LocalFunction, stmt = f.code ∧ f.host = host ∧ f.holder ∉ reservedNames ∧
            Everywhere context.env s s' fun frame => frame.IsBody f.hosts f.body := by
        refine Built.bind (Built.compileLambda forms ok known definitionOk.list definitionOk.body _)
          fun _ _ _ _ ok₁ makes => Built.gives ok₁ ?_
        obtain ⟨holder, hosts, body, properties, rfl, unreserved, some_, isBody⟩ := makes.parts
        refine ⟨⟨host, holder, hosts, body, properties⟩, ?_, rfl, unreserved, isBody⟩
        rw [functionCode, if_neg (by simpa using some_ rfl)]
        rfl
      refine Built.bind defined fun W₁ s₁ stmt step₁ ok₁ first => ?_
      refine Built.bind (ih ok₁ (known.further step₁) fun other member =>
        (others other member).further step₁) fun W₂ s₂ stmts step₂ ok₂ all => Built.gives ok₂ ?_
      obtain ⟨f, rfl, host_eq, unreserved, isBody⟩ := first
      obtain ⟨locals, rfl, defines⟩ := all
      refine ⟨f :: locals, rfl, by simp [host_eq, defines.hosts],
        List.forall_mem_cons.mpr ⟨unreserved, defines.holders⟩,
        List.forall_mem_cons.mpr ⟨isBody.widen (Progress.refl _) step₂.progress,
          fun other member => ?_⟩⟩
      exact (defines.bodies other member).widen step₁.progress (Progress.refl _)

/-- Functions are defined together, so that each may see all of them. -/
theorem Goes.functions {locals : List LocalFunction} {n : Nat} {names : List String}
    (new : NewHosts s.counters s₁.counters n names) (progress : Progress s s₁)
    (defines : DefinesFunctions env' s₁ s₂ names locals) (progress' : Progress s₁ s₂)
    (inner : Environment)
    (serves : ∀ late (frame : Frame) c, frame.Serves env c late →
      (∀ name ∈ names, frame.Has name .datum) →
        frame.Serves env' c late ∧ frame.Serves inner c late) :
    Goes [] s s₂ { env } { env := inner, prologue := { current := locals.map (·.code) } }
      (fun _ => True) fun _ => True := by
  refine ⟨fun body => locals.map (·.code) ++ body, fun body => rfl,
    fun late frame body kind last start _ rest => ?_⟩
  have fresh : ∀ name ∈ names, frame.Fresh name := fun name member =>
    Frame.Serves.fresh start ((new.made name member).left (progress'.trans last).counters)
  obtain ⟨onward, has⟩ := Frame.Serves.bindAll start new.made progress.counters
    (progress'.trans last).counters .datum
  obtain ⟨outside, within⟩ := serves late _ _ onward has
  have later : frame.Later [] (frame.bindAll names .datum) := by
    refine ⟨fun name kind known => ?_, nofun, fun _ member => member⟩
    have outside : name ∉ names := by
      intro member
      rw [(fresh name member).1] at known
      cases known
    exact (if_neg outside).trans known
  have isBody : ∀ f ∈ locals, (frame.bindAll names .datum).IsBody f.hosts f.body :=
    fun f member => defines.bodies f member late _ last outside
  obtain rfl := defines.hosts
  exact .defineFunctions new.nodup (fun f member => fresh _ (List.mem_map_of_mem member))
    defines.holders (fun f member => (isBody f member).1) (fun f member => (isBody f member).2)
    (rest _ (within.later progress'.counters) later trivial)

theorem Built.compileLocalFunctions (forms : CompilesForms compile) (ok : CompilerOk W s)
    (env : EnvOk W s context.env) (data : W.Data args) (recursive : Bool) :
    Built W s (Compiler.compileLocalFunctions compile context recursive form args)
      fun _ s' code => Compiles context s s' code := by
  refine Built.bind (Built.expectArgs ok _ _ _ _) fun W₁ s₁ _ step₁ ok₁ _ => ?_
  refine Built.bind (Built.parseDefinitions ok₁ (step₁.datum data.headD))
    fun W₂ s₂ definitions step₂ ok₂ definitionsOk => ?_
  have before₂ := step₁.trans step₂
  refine Built.bind (Built.parseBody ok₂ (before₂.data data.tail) false)
    fun W₃ s₃ body step₃ ok₃ dataForms => ?_
  have before₃ := before₂.trans step₃
  refine Built.bind (Built.functionHosts ok₃ definitions) fun W₄ s₄ hosts step₄ ok₄ held => ?_
  obtain ⟨new, isFirst⟩ := held
  refine Built.bind (Built.bindFunctions ok₄ (env.further (before₃.trans step₄)) hosts)
    fun W₅ s₅ inner step₅ ok₅ binds => ?_
  have env₅ := env.further ((before₃.trans step₄).trans step₅)
  have definitionsOk₅ : ∀ part ∈ hosts, DefinitionOk W₅ part.1 := fun part member =>
    (definitionsOk part.1 (isFirst ▸ List.mem_map_of_mem member)).further
      ((step₃.trans step₄).trans step₅)
  obtain ⟨within, same, envWithin, serves⟩ : ∃ within : Context,
      (if recursive then context.withEnv inner else context) = within ∧
      EnvOk W₅ s₅ within.env ∧ ∀ late (frame : Frame) c, frame.Serves context.env c late →
        (∀ name ∈ hosts.map Prod.snd, frame.Has name .datum) →
          frame.Serves within.env c late ∧ frame.Serves inner c late := by
    have onward : ∀ late (frame : Frame) c, frame.Serves context.env c late →
        (∀ name ∈ hosts.map Prod.snd, frame.Has name .datum) → frame.Serves inner c late :=
      fun late frame c serves has => ⟨serves.unmade, binds.asks late frame serves.bindings
        fun part member => has _ (List.mem_map_of_mem member), serves.literals⟩
    cases recursive with
    | true => exact ⟨_, rfl, binds.ok, fun late frame c serves has =>
        ⟨onward late frame c serves has, onward late frame c serves has⟩⟩
    | false => exact ⟨_, rfl, env₅, fun late frame c serves has =>
        ⟨serves, onward late frame c serves has⟩⟩
  dsimp only
  rw [same]
  refine Built.bind (Built.localFunctions forms ok₅ envWithin definitionsOk₅)
    fun W₆ s₆ stmts step₆ ok₆ all => ?_
  obtain ⟨locals, rfl, defines⟩ := all
  have before₆ := (step₄.trans step₅).trans step₆
  have new₅ := new.left step₅.progress.counters
  have goes := Goes.functions new₅ (step₄.trans step₅).progress defines step₆.progress inner serves
  refine Builds.mono (Built.finishBinding forms ok₆ (binds.ok.further step₆) goes
    (before₆.data dataForms) _) fun _ _ _ compiles => ?_
  exact compiles.widen before₃.progress (Progress.refl _)

theorem Built.compileLocally (forms : CompilesForms compile) (ok : CompilerOk W s)
    (known : EnvOk W s context.env) (data : W.Data args) :
    Built W s (Compiler.compileLocally compile context args) fun _ s' code =>
      Compiles context s s' code := by
  refine Built.bind (Built.parseBody ok data false) fun W₁ s₁ body step₁ ok₁ dataForms => ?_
  refine Built.bind (Built.applyFreeDeclarations ok₁ (known.further step₁) _ _)
    fun W₂ s₂ env step₂ ok₂ stands => ?_
  have known₂ : EnvOk W₂ s₂ (context.withEnv env).env := stands.ok
  refine Builds.mono (Built.compileProgn forms ok₂ known₂ (step₂.data dataForms))
    fun W₃ s₃ code compiles => ?_
  exact (Everywhere.noMore compiles stands.noMore).widen (step₁.trans step₂).progress
    (Progress.refl _)

/-- Macros ask nothing of frames. -/
theorem Built.bindMacros (forms : CompilesForms compile) (ok : CompilerOk W s)
    (known : EnvOk W s env) {definitions : List LocalDefinition}
    (definitionsOk : ∀ definition ∈ definitions, DefinitionOk W definition) :
    Built W s (Compiler.bindMacros compile env definitions) (Stands env) := by
  induction definitions generalizing W s env with
  | nil => exact Built.gives ok ⟨known, AsksNoMore.refl env⟩
  | cons definition rest ih =>
      obtain ⟨definitionOk, others⟩ := List.forall_mem_cons.mp definitionsOk
      refine Built.bind (Built.makeExpander forms ok _ definitionOk.list definitionOk.body)
        fun W₁ s₁ expander step₁ ok₁ datum => ?_
      have data : ReferenceOk W₁ (.expander expander) := datum
      refine Built.bind (Built.newBinding ok₁ _ _ data) fun W₂ s₂ binding step₂ ok₂ new => ?_
      have before₂ := step₁.trans step₂
      have known₂ : EnvOk W₂ s₂ (binding :: env) :=
        List.forall_mem_cons.mpr ⟨new.ok, known.further before₂⟩
      refine (ih ok₂ known₂ fun other member => (others other member).further before₂).mono
        fun _ _ _ stands => ⟨stands.ok, AsksNoMore.trans (fun late frame asks => ?_) stands.noMore⟩
      refine List.forall_mem_cons.mpr ⟨?_, asks⟩
      rw [Asks, new.reference_eq]
      trivial

theorem Built.compileMacrolet (forms : CompilesForms compile) (ok : CompilerOk W s)
    (known : EnvOk W s context.env) (data : W.Data args) :
    Built W s (Compiler.compileMacrolet compile context form args) fun _ s' code =>
      Compiles context s s' code := by
  refine Built.bind (Built.expectArgs ok _ _ _ _) fun W₁ s₁ _ step₁ ok₁ _ => ?_
  refine Built.bind (Built.parseDefinitions ok₁ (step₁.datum data.headD))
    fun W₂ s₂ definitions step₂ ok₂ definitionsOk => ?_
  have before₂ := step₁.trans step₂
  refine Built.bind (Built.bindMacros forms ok₂ (known.further before₂) definitionsOk)
    fun W₃ s₃ env step₃ ok₃ stands => ?_
  have known₃ : EnvOk W₃ s₃ (context.withEnv env).env := stands.ok
  have before₃ := before₂.trans step₃
  refine Builds.mono (Built.compileLocally forms ok₃ known₃ (before₃.data data.tail))
    fun _ _ _ compiles => ?_
  exact (Everywhere.noMore compiles stands.noMore).widen before₃.progress (Progress.refl _)

end Functions

end LispScript.Discipline
