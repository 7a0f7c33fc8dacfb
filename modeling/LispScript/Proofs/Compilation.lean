import LispScript.Proofs.Exits

/-!
Compilation as a whole. Direct calls and forms that act at once keep to the discipline, and with all
special forms so does whatever a form is compiled to.
-/

namespace LispScript.Discipline

open Script Machine Compiler

section Direct

variable {frame : Frame} {args : List Expr} {acceptor : Expr} {manyValues : Bool}

theorem foldOp?_arithmetic {p : Primitive} {op : BinaryOp} (folds : foldOp? p = some op) :
    op ∈ arithmeticOps := by
  unfold foldOp? at folds
  split at folds <;> cases folds <;> decide

theorem compareOp?_comparison {p : Primitive} {op : BinaryOp} (compares : compareOp? p = some op) :
    op ∈ comparisonOps := by
  unfold compareOp? at compares
  split at compares <;> cases compares <;> decide

theorem Derivable.lispTruth {op : BinaryOp} {left right : Expr} (op_mem : op ∈ comparisonOps)
    (left_datum : Derivable frame (.expr left .datum))
    (right_datum : Derivable frame (.expr right .datum)) :
    Derivable frame (.expr (lispTruth (.binary op left right)) .datum) :=
  .choose op_mem left_datum right_datum (.widen Kind.symbol_within_datum .t)
    (.widen Kind.symbol_within_datum .nil)

theorem Derivable.foldl {op : BinaryOp} (op_mem : op ∈ arithmeticOps) {first : Expr}
    (first_datum : Derivable frame (.expr first .datum))
    (data : ∀ arg ∈ args, Derivable frame (.expr arg .datum)) :
    Derivable frame (.expr (args.foldl (Expr.binary op) first) .datum) := by
  induction args generalizing first with
  | nil => exact first_datum
  | cons arg rest ih =>
      obtain ⟨arg_datum, others⟩ := List.forall_mem_cons.mp data
      exact ih (.arithmetic op_mem first_datum arg_datum) others

theorem Derivable.inlineFold {op : BinaryOp} (op_mem : op ∈ arithmeticOps)
    (data : ∀ arg ∈ args, Derivable frame (.expr arg .datum)) :
    Derivable frame (.expr (inlineFold op args) .datum) := by
  cases args with
  | nil => exact .number
  | cons first rest =>
      obtain ⟨first_datum, others⟩ := List.forall_mem_cons.mp data
      cases rest with
      | nil =>
          unfold Compiler.inlineFold
          dsimp only
          split
          · exact .negate first_datum
          · exact .arithmetic op_mem .number first_datum
      | cons other more => exact .foldl op_mem first_datum others

theorem Derivable.callPrimitive (p : Primitive) (accepts : frame.Accepts acceptor manyValues)
    (data : ∀ arg ∈ args, Derivable frame (.expr arg .datum)) :
    Derivable frame (.expr (.callPrimitive p (if p.takesAcceptor then acceptor :: args else args))
      (.result manyValues)) := by
  split
  · rename_i takes
    exact .primitiveValues takes accepts data
  · rename_i plain
    exact .widen (Kind.datum_within_result manyValues) (.primitive (by simpa using plain) data)

/-- A direct call of a built-in function delivers what the function gives. -/
theorem Derivable.inlineCall (p : Primitive) (accepts : frame.Accepts acceptor manyValues)
    (data : ∀ arg ∈ args, Derivable frame (.expr arg .datum)) :
    Derivable frame (.expr (inlineCall p args acceptor) (.result manyValues)) := by
  have datum {code : Expr} (derives : Derivable frame (.expr code .datum)) :
      Derivable frame (.expr code (.result manyValues)) :=
    .widen (Kind.datum_within_result manyValues) derives
  have nil_datum : Derivable frame (.expr .nil .datum) := .widen Kind.symbol_within_datum .nil
  unfold Compiler.inlineCall
  split
  · rename_i op folds
    exact datum (.inlineFold (foldOp?_arithmetic folds) data)
  · split
    · rename_i op compares
      exact datum (.lispTruth (compareOp?_comparison compares) (data _ (by simp))
        (data _ (by simp)))
    · split
      · exact datum (.arithmetic (by decide) (data _ (by simp)) .number)
      · exact datum (.arithmetic (by decide) (data _ (by simp)) .number)
      · exact datum (.lispTruth (by decide) (data _ (by simp)) nil_datum)
      · exact datum (.lispTruth (by decide) (data _ (by simp)) nil_datum)
      · exact .deliver accepts data
      · exact .callPrimitive p accepts data

end Direct

section Acting

variable {W : World} {s : CompileState} {compile : FormCompiler} {context : Context}
  {form : Value} {args : List Value}

theorem Built.orFail {α : Type} {step failure : Compile α} {post : World → CompileState → α → Prop}
    (built : Built W s step post)
    (fails : ∀ W' s', Further W s W' s' → CompilerOk W' s' → Built W' s' failure post) :
    Built W s (Compiler.orFail step failure) post := by
  unfold Built Compiler.orFail
  cases ended : step s with
  | ok a s' =>
      rw [Built, ended] at built
      exact built
  | error e s' =>
      rw [Built, ended] at built
      cases built with
      | error W' further ok explained => exact (fails W' s' further ok).after further

theorem Built.updateGlobals (f : Declarations → Declarations)
    (kept : ∀ d : Declarations, d.used = true → (f d).used = true) (space : Namespace)
    (ids : List SymbolId) (ok : CompilerOk W s) :
    Built W s (ids.forM fun id => do
      let binding ← Compiler.onBindings (·.lookupGlobal id space)
      Compiler.modifyBindings (·.updateDeclared binding f)) fun _ _ _ => True := by
  refine Built.forM (fun _ _ => True) ok trivial fun id _ W s ok _ => ?_
  exact Built.bind (Built.lookupGlobal ok id space) fun _ _ binding _ ok₁ _ =>
    Built.updateDeclared ok₁ binding kept

theorem Built.proclaim (ok : CompilerOk W s) (specs : DeclSpecs) :
    Built W s (Compiler.proclaim specs) fun _ _ _ => True := by
  refine Built.bind (Built.updateGlobals (fun d => { d with special := true })
    (fun _ used => used) .vars specs.specials ok) fun _ _ _ _ ok₁ _ => ?_
  refine Built.bind (Built.updateGlobals (fun d => { d with notInline := true })
    (fun _ used => used) .functions specs.notInline ok₁) fun _ _ _ _ ok₂ _ => ?_
  exact Built.updateGlobals (fun d => { d with notInline := false }) (fun _ used => used)
    .functions specs.inlined ok₂

/-- Code for `NIL`. -/
theorem Built.compilesNil {before : CompileState} (ok : CompilerOk W s) :
    Built W s (pure .nil) fun _ s' code => Compiles context before s' code :=
  Built.gives ok fun _ frame _ _ manyValues _ => Derivable.nil_result frame manyValues

theorem Built.compileDeclaim (ok : CompilerOk W s) (data : W.Data args) :
    Built W s (Compiler.compileDeclaim form args) fun _ s' code => Compiles context s s' code := by
  refine Built.bind (Built.newList ok data) fun W₁ s₁ list _ ok₁ datum => ?_
  refine Built.bind (Built.newCons ok₁ trivial datum) fun W₂ s₂ declaration _ ok₂ datum => ?_
  refine Built.bind (Built.orFail (Built.parseDeclaration ok₂ datum {}) fun W' s' _ ok' =>
    Built.malformed ok' _ _) fun W₃ s₃ specs _ ok₃ _ => ?_
  exact Built.bind (Built.proclaim ok₃ specs) fun _ _ _ _ ok₄ _ => Built.compilesNil ok₄

theorem Built.compileDefmacro (forms : CompilesForms compile) (ok : CompilerOk W s)
    (data : W.Data args) :
    Built W s (Compiler.compileDefmacro compile form args) fun _ s' code =>
      Compiles context s s' code := by
  refine Built.bind (Built.expectArgs ok _ _ _ _) fun W₁ s₁ _ step₁ ok₁ _ => ?_
  split
  · rename_i name lambdaList body
    obtain ⟨-, datumList, dataBody⟩ : W.Datum name ∧ W.Datum lambdaList ∧ W.Data body := by
      simpa [World.data_cons] using data
    refine Built.bind (Built.symbolArg ok₁ _ _ _) fun W₂ s₂ id step₂ ok₂ _ => ?_
    have before₂ := step₁.trans step₂
    refine Built.bind (Built.makeExpander forms ok₂ id (before₂.datum datumList)
      (before₂.data dataBody)) fun W₃ s₃ expander step₃ ok₃ datum => ?_
    have known : ReferenceOk W₃ (.expander expander) := datum
    refine Built.bind (Built.define ok₃ id .functions known trivial)
      fun W₄ s₄ _ step₄ ok₄ _ => ?_
    exact (Built.symbolLiteral ok₄ id).mono fun _ _ _ symbol =>
      Codes.compiles symbol.literal.datum.codes
  · exact Built.compilesNil ok₁

theorem Built.compileDefconstant (forms : CompilesForms compile) (ok : CompilerOk W s)
    (data : W.Data args) :
    Built W s (Compiler.compileDefconstant compile form args) fun _ s' code =>
      Compiles context s s' code := by
  refine Built.bind (Built.expectArgs ok _ _ _ _) fun W₁ s₁ _ step₁ ok₁ _ => ?_
  split
  · rename_i name init rest
    obtain ⟨-, datumInit, -⟩ : W.Datum name ∧ W.Datum init ∧ W.Data rest := by
      simpa [World.data_cons] using data
    refine Built.bind (Built.symbolArg ok₁ _ _ _) fun W₂ s₂ id step₂ ok₂ _ => ?_
    refine Built.ofSymbols ?_
    have before₂ := step₁.trans step₂
    split
    · exact .error W₂ (Further.refl W₂ s₂) ok₂ trivial
    · refine Built.bind (Built.evalNow forms ok₂ (before₂.datum datumInit))
        fun W₃ s₃ value step₃ ok₃ datum => ?_
      refine Built.bind (Built.literal ok₃ value) fun W₄ s₄ written step₄ ok₄ isLiteral => ?_
      have known : ReferenceOk W₄ (.constant value) := step₄.datum datum
      refine Built.bind (Built.define ok₄ id .vars known trivial)
        fun W₅ s₅ binding step₅ ok₅ _ => ?_
      refine Built.bind (Built.updateDeclared ok₅ binding
        (f := fun d => { d with constant := true }) fun _ used => used)
        fun W₆ s₆ _ step₆ ok₆ _ => ?_
      refine Built.bind (Built.symbolLiteral ok₆ id) fun W₇ s₇ cell step₇ ok₇ symbol => ?_
      refine Built.gives ok₇ fun late frame progress serves manyValues _ => ?_
      have later := ((step₅.trans step₆).trans step₇).progress.trans progress
      have place := symbol.literal.codes late frame progress serves
      have value := isLiteral.codes late frame later serves
      have assigned : Derivable frame (.expr (.assign (.member cell "value") written) .datum) :=
        .assignSlot Kind.datum_within_optional place value
      have effects : ∀ e ∈ [Script.Expr.assign (.member cell "value") written],
          Derivable frame (.expr e .datum) :=
        fun e member => List.mem_singleton.mp member ▸ assigned
      exact .widen (Kind.datum_within_result manyValues)
        (.comma effects (.widen Kind.symbol_within_datum place))
  · exact Built.compilesNil ok₁

theorem Built.compileEvalWhen (forms : CompilesForms compile) (ok : CompilerOk W s)
    (env : EnvOk W s context.env) (data : W.Data args) :
    Built W s (Compiler.compileEvalWhen compile context form args) fun _ s' code =>
      Compiles context s s' code := by
  refine Built.bind (Built.expectArgs ok _ _ _ _) fun W₁ s₁ _ step₁ ok₁ _ => ?_
  refine Built.bind (Built.listArg ok₁ form (step₁.datum data.headD) _)
    fun W₂ s₂ situations step₂ ok₂ _ => ?_
  have before₂ := step₁.trans step₂
  refine Built.bind (Built.newList ok₂ (before₂.data data.tail)) fun W₃ s₃ list step₃ ok₃ datum => ?_
  have headDatum : W₃.Datum (.symbol SpecialForm.progn.symbol) :=
    show SpecialForm.progn.symbol ≠ SymbolId.nil by decide
  refine Built.bind (Built.newCons ok₃ headDatum datum) fun W₄ s₄ body step₄ ok₄ datum => ?_
  have before₄ := (before₂.trans step₃).trans step₄
  have later : ∀ W' s', Further W₄ s₄ W' s' → CompilerOk W' s' →
      Built W' s' (if Compiler.anySituation situations [SymbolId.loadToplevelKey, SymbolId.load,
        SymbolId.executeKey, SymbolId.eval] then compile context body else pure .nil)
        fun _ s'' code => Compiles context s s'' code := by
    intro W' s' further ok'
    have before := before₄.trans further
    split
    · exact (forms W' s' context body ok' (env.further before) (further.datum datum)).mono
        fun _ _ _ compiles => compiles.widen before.progress (Progress.refl _)
    · exact Built.compilesNil ok'
  dsimp only
  split
  · refine Built.bind (Built.evalNow forms ok₄ datum) fun W₅ s₅ _ step₅ ok₅ _ => ?_
    exact later W₅ s₅ step₅ ok₅
  · exact later W₄ s₄ (Further.refl W₄ s₄) ok₄

end Acting

section Forms

variable {W : World} {s : CompileState} {compile : FormCompiler} {context : Context}
  {form : Value} {args : List Value}

/-- Whatever special form it is. -/
theorem Built.compileSpecial (forms : CompilesForms compile) (ok : CompilerOk W s)
    (env : EnvOk W s context.env) (special : SpecialForm) (data : W.Data args) :
    Built W s (Compiler.compileSpecial compile context special form args) fun _ s' code =>
      Compiles context s s' code := by
  cases special with
  | quote => exact Built.compileQuote ok
  | function => exact Built.compileFunction forms ok env data
  | conditional => exact Built.compileIf forms ok env data
  | progn => exact Built.compileProgn forms ok env data
  | setq => exact Built.compileSetq forms ok env data
  | bind => exact Built.compileLet forms ok env data
  | bindInOrder => exact Built.compileLetStar forms ok env data
  | flet => exact Built.compileLocalFunctions forms ok env data false
  | labels => exact Built.compileLocalFunctions forms ok env data true
  | macrolet => exact Built.compileMacrolet forms ok env data
  | locally => exact Built.compileLocally forms ok env data
  | typed => exact Built.compileThe forms ok env data
  | evalWhen => exact Built.compileEvalWhen forms ok env data
  | declaim => exact Built.compileDeclaim ok data
  | macroDefinition => exact Built.compileDefmacro forms ok data
  | constantDefinition => exact Built.compileDefconstant forms ok data
  | backquote =>
      refine Built.bind (Built.expectArgs ok _ _ _ _) fun W₁ s₁ _ step₁ ok₁ _ => ?_
      refine Built.bind (Built.expandBackquote ok₁ (step₁.datum data.headD))
        fun W₂ s₂ expansion step₂ ok₂ datum => ?_
      have before := step₁.trans step₂
      exact (forms W₂ s₂ context expansion ok₂ (env.further before) datum).mono
        fun _ _ _ compiles => compiles.widen before.progress (Progress.refl _)
  | unquote => exact Built.described (Built.fails ok trivial)
  | unquoteSplicing => exact Built.described (Built.fails ok trivial)
  | multipleValueCall => exact Built.compileMultipleValueCall forms ok env data
  | multipleValueProg1 => exact Built.compileMultipleValueProg1 forms ok env data
  | block => exact Built.compileBlock forms ok env data
  | returnFrom => exact Built.compileReturnFrom forms ok env data
  | catching => exact Built.compileCatch forms ok env data
  | throwing => exact Built.compileThrow forms ok env data
  | tagbody => exact Built.compileTagbody forms ok env data
  | go => exact Built.compileGo ok env
  | unwindProtect => exact Built.compileUnwindProtect forms ok env data

theorem Built.inlinable? (ok : CompilerOk W s) (binding : Binding) (id : SymbolId) (count : Nat) :
    Built W s (Compiler.inlinable? binding id count) fun _ _ _ => True := by
  refine Built.ofDeclared ?_
  split <;> exact Built.gives ok trivial

theorem Built.compileNamed (forms : CompilesForms compile) (ok : CompilerOk W s)
    (env : EnvOk W s context.env) (datum : W.Datum form) (id : SymbolId) (data : W.Data args) :
    Built W s (Compiler.compileNamed compile context form id args) fun _ s' code =>
      Compiles context s s' code := by
  unfold Compiler.compileNamed
  split
  · exact (Built.functionReference forms ok env datum).mono fun _ _ _ function =>
      Codes.compiles function.codes
  · split
    · exact Built.compileSpecial forms ok env _ data
    · refine Built.bind (Built.resolve ok env _ _) fun W₁ s₁ binding? step₁ ok₁ resolved => ?_
      split
      · exact Built.described (Built.fails ok₁ trivial)
      · rename_i binding
        have found := resolved binding rfl
        refine Built.bind (Built.markUsed ok₁ found.ok) fun W₂ s₂ _ step₂ ok₂ _ => ?_
        have before := step₁.trans step₂
        have env₂ := env.further before
        have known := (found.ok.further step₂).reference
        split
        · rename_i expander reference
          rw [reference] at known
          refine Built.bind (Built.callExpander ok₂ id known (before.datum datum))
            fun W₃ s₃ expansion step₃ ok₃ datum => ?_
          exact (forms W₃ s₃ context expansion ok₃ (env₂.further step₃) datum).mono
            fun _ _ _ compiles =>
              compiles.widen (before.trans step₃).progress (Progress.refl _)
        · rename_i name reference
          refine Built.compileCall forms ok₂ env₂ before.progress
            (Codes.calls (fun late frame _ serves => ?_) fun _ _ => Expr.noConfusion)
            (before.data data)
          exact .ident (found.host reference serves).known
        · refine Built.bind (Built.inlinable? ok₂ binding id _) fun W₃ s₃ p? step₃ ok₃ _ => ?_
          have before₃ := before.trans step₃
          have env₃ := env₂.further step₃
          split
          · rename_i p
            refine Built.bind (Built.compileArgs forms ok₃ env₃ (before₃.data data))
              fun W₄ s₄ codes step₄ ok₄ all => Built.gives ok₄ ?_
            intro late frame progress serves manyValues accepts
            exact .inlineCall p accepts fun code member =>
              all.2 code member late frame progress (serves.later before₃.progress.counters)
          · refine Built.bind (Built.globalFunction ok₃ context.env id)
              fun W₄ s₄ callee step₄ ok₄ function => ?_
            have before₄ := before₃.trans step₄
            refine Built.compileCall forms ok₄ (env₃.further step₄) before₄.progress ?_
              (before₄.data data)
            exact function.calls.widen before₃.progress (Progress.refl _)
        · exact Built.described (Built.fails ok₂ trivial)

theorem Built.compileCompound (forms : CompilesForms compile) (ok : CompilerOk W s)
    (env : EnvOk W s context.env) (datum : W.Datum form) {head : Value} (datumHead : W.Datum head) :
    Built W s (Compiler.compileCompound compile context form head) fun _ s' code =>
      Compiles context s s' code := by
  refine Built.bind (Built.restItems? ok datum) fun W₁ s₁ args? step₁ ok₁ data => ?_
  have env₁ := env.further step₁
  split
  · exact Built.malformed ok₁ _ _
  · rename_i args
    have data := data args rfl
    split
    · rename_i id
      exact (Built.compileNamed forms ok₁ env₁ (step₁.datum datum) id data).mono
        fun _ _ _ compiles => compiles.widen step₁.progress (Progress.refl _)
    · refine Built.bind (Built.isLambdaExpression ok₁ (step₁.datum datumHead))
        fun W₂ s₂ isLambda step₂ ok₂ _ => ?_
      have before₂ := step₁.trans step₂
      split
      · refine Built.bind (Built.functionReference forms ok₂ (env.further before₂)
          (before₂.datum datumHead)) fun W₃ s₃ callee step₃ ok₃ function => ?_
        have before₃ := before₂.trans step₃
        refine Built.compileCall forms ok₃ (env.further before₃) before₃.progress ?_
          ((step₂.trans step₃).data data)
        exact function.calls.widen before₂.progress (Progress.refl _)
      · exact Built.described (Built.fails ok₂ trivial)

/-- One step of the compiler keeps to the discipline if the steps below it do. -/
theorem CompilesForms.step (forms : CompilesForms compile) :
    CompilesForms fun context form => Compiler.compileStep compile context form := by
  intro W s context form ok env datum
  dsimp only
  unfold Compiler.compileStep
  split
  · exact (Built.compileSymbol ok env _).mono fun _ _ _ codes => Codes.compiles codes
  · rename_i address
    exact Built.ofHeap
      (Built.compileCompound forms ok env datum (ok.describes.cell_datum address).1)
  · exact (Built.literal ok _).mono fun _ _ _ literal => Codes.compiles literal.codes

/-- Whatever is compiled keeps to the discipline. -/
theorem CompilesForms.within (depth : Nat) : CompilesForms (Compiler.compileWithin depth) := by
  induction depth with
  | zero => exact fun W s context form ok _ _ => Built.fails ok trivial
  | succ depth ih => exact ih.step

end Forms

section Macros

variable {W : World} {s : CompileState} {context : Context} {form : Value}

theorem Built.macroOf? (ok : CompilerOk W s) (env : EnvOk W s context.env)
    (datum : W.Datum form) :
    Built W s (Compiler.macroOf? context form) fun W' _ found =>
      ∀ expander ∈ found, W'.Datum expander.2 := by
  refine Built.bind (Built.carOf? ok datum) fun W₁ s₁ head? step₁ ok₁ _ => ?_
  split
  · exact Built.gives ok₁ nofun
  · split
    · exact Built.gives ok₁ nofun
    · split
      · exact Built.gives ok₁ nofun
      · refine Built.bind (Built.resolve ok₁ (env.further step₁) _ _)
          fun W₂ s₂ binding? step₂ ok₂ resolved => ?_
        split
        · rename_i function _
          refine Built.gives ok₂ fun expander found => ?_
          obtain rfl := Option.some.inj found
          exact (resolved _ rfl).ok.reference
        · exact Built.gives ok₂ nofun

theorem Built.expandOnce? (ok : CompilerOk W s) (env : EnvOk W s context.env)
    (datum : W.Datum form) :
    Built W s (Compiler.expandOnce? context form) fun W' _ expansion? =>
      ∀ expansion ∈ expansion?, W'.Datum expansion := by
  refine Built.bind (Built.macroOf? ok env datum) fun W₁ s₁ found step₁ ok₁ known => ?_
  split
  · rename_i name expander
    rw [map_eq_pure_bind]
    refine Built.bind (Built.callExpander ok₁ name (known _ rfl) (step₁.datum datum))
      fun W₂ s₂ expansion _ ok₂ datum => Built.gives ok₂ fun other same => ?_
    exact Option.some.inj same ▸ datum
  · exact Built.gives ok₁ nofun

theorem Built.expandWithin (ok : CompilerOk W s) (env : EnvOk W s context.env) (steps : Nat)
    (expanded : Bool) (datum : W.Datum form) :
    Built W s (Compiler.expandWithin context steps expanded form) fun W' _ result =>
      W'.Datum result.1 := by
  induction steps generalizing W s expanded form with
  | zero => exact Built.fails ok trivial
  | succ steps ih =>
      refine Built.bind (Built.expandOnce? ok env datum) fun W₁ s₁ expansion? step₁ ok₁ known => ?_
      split
      · exact ih ok₁ (env.further step₁) true (known _ rfl)
      · exact Built.gives ok₁ (step₁.datum datum)

end Macros

end LispScript.Discipline
