import LispScript.Proofs.Heads

/-!
Functions. The body of a compiled lambda expression keeps to the discipline under any acceptor and any
number of arguments, wherever the environment of the expression is served.
-/

namespace LispScript.Discipline

open Script Machine Compiler

section Parameters

variable {W : World} {s : CompileState} {specials : List SymbolId} {compile : FormCompiler}
  {context : Context}

/-- What the head of a function comes to: whatever may stand where all parameters are bound may be the
rest of the function's body. -/
structure ParametersFor (s : CompileState) (env : Environment) (count : Nat) (W' : World)
    (s' : CompileState) (result : Head × List String) : Prop where
  ok : HeadOk W' s' result.1
  hosts : NewHosts s.counters s'.counters count result.2
  enters : ∀ late (frame : Frame) manyValues count body kind, Progress s' late →
    frame.Serves env s.counters late → 1 ≤ count →
    (∀ frame' : Frame, frame'.Serves result.1.env s'.counters late →
      (frame.enter manyValues count result.2).Later [] frame' →
        Derivable frame' (.returns body kind)) →
    Derivable (frame.enter manyValues count result.2) (.returns (result.1.prologue.finish body) kind)

theorem NewHosts.canEnter {c c' : Counters} {n : Nat} {hosts : List String}
    (new : NewHosts c c' n hosts) {frame : Frame} {env : Environment} {late : CompileState}
    (serves : frame.Serves env c late) (within : c'.Leads late.counters) :
    frame.CanEnter hosts :=
  ⟨new.nodup, fun host member => serves.fresh ((new.made host member).left within)⟩

variable {s₁ s₂ : CompileState} {head₁ head₂ : Head} {list : LambdaList}
  {requiredHosts optionalHosts : List String}

/-- The head of a function as far as its checks. -/
def checkedHead (context : Context) (list : LambdaList) : Head :=
  { env := context.env, prologue := { current := arityChecks list } }

/-- Where a function was called with enough arguments, its required parameters have values, and the
optional ones are there. -/
theorem Goes.positional (progress₁ : Progress s s₁) (progress₂ : Progress s₁ s₂)
    (new₁ : NewHosts s.counters s₁.counters list.required.length requiredHosts)
    (new₂ : NewHosts s₁.counters s₂.counters list.optional.length optionalHosts)
    (goes₁ : ∀ params, Only params s.counters s₁.counters requiredHosts →
      Goes params s s₁ (checkedHead context list) head₁
        (fun frame => ∀ host ∈ requiredHosts, frame.Has host .datum) fun _ => True)
    (goes₂ : ∀ params, Only params s₁.counters s₂.counters optionalHosts →
      Goes params s₁ s₂ head₁ head₂ (fun frame => ∃ count, frame.Called count) fun _ => True) :
    ∃ around : List Stmt → List Stmt,
      (∀ body, head₂.prologue.finish body = arityChecks list ++ around body) ∧
      ∀ late (frame : Frame) manyValues count body kind, Progress s₂ late →
        frame.Serves context.env s.counters late → list.required.length + 1 ≤ count →
        (∀ frame' : Frame, frame'.Serves head₂.env s₂.counters late →
          (frame.enter manyValues count (requiredHosts ++ optionalHosts)).Later [] frame' →
          frame'.Called count ∧ frame'.Awaits count list.required.length optionalHosts →
            Derivable frame' (.returns body kind)) →
        Derivable (frame.enter manyValues count (requiredHosts ++ optionalHosts))
          (.returns (around body) kind) := by
  have new := new₁.append new₂ progress₁.counters progress₂.counters
  obtain ⟨only₁, only₂⟩ : Only (requiredHosts ++ optionalHosts) s.counters s₁.counters requiredHosts ∧
      Only (requiredHosts ++ optionalHosts) s₁.counters s₂.counters optionalHosts :=
    Only.split (fun _ member _ => member) progress₁.counters progress₂.counters new₁.made new₂.made
  have goes : Goes (requiredHosts ++ optionalHosts) s s₂ (checkedHead context list) head₂
      (fun frame => (∃ count, frame.Called count) ∧ ∀ host ∈ requiredHosts, frame.Has host .datum)
      fun _ => True := by
    refine ((goes₁ _ only₁).adapt (fun _ held => held.2) fun _ _ later held _ => ?_).trans
      (goes₂ _ only₂) progress₂ fun _ _ _ _ held => held
    exact held.1.imp fun _ called => later.called called
  obtain ⟨around, finish, derives⟩ := goes
  refine ⟨around, finish, fun late frame manyValues count body kind last serves enough rest => ?_⟩
  have canEnter := new.canEnter serves last.counters
  have called : (frame.enter manyValues count (requiredHosts ++ optionalHosts)).Called count :=
    canEnter.called manyValues
  have awaits : (frame.enter manyValues count (requiredHosts ++ optionalHosts)).Awaits count
      requiredHosts.length optionalHosts := canEnter.awaits
  rw [new₁.length] at awaits
  refine derives late _ body kind last (serves.enter new last.counters manyValues count)
    ⟨⟨count, called⟩, canEnter.required (by rw [new₁.length]; exact enough)⟩
    fun frame' serves' later _ => ?_
  refine rest frame' (serves'.only fun name member _ => ⟨s.counters, new.made name member⟩)
    (later.fewer fun _ member => (List.not_mem_nil member).elim) ⟨later.called called, ?_⟩
  exact later.awaits (fun _ member => List.mem_append_right _ member) awaits

theorem Built.bindParameters (ok : CompilerOk W s) (forms : CompilesForms compile)
    (env : EnvOk W s context.env) (defaults : DefaultsOk W list) :
    Built W s (Compiler.bindParameters compile context specials list)
      (ParametersFor s context.env (list.required.length + list.optional.length)) := by
  have env₀ : HeadOk W s (checkedHead context list) := env
  refine Built.bind (Built.bindRequired ok env₀ list.required)
    fun W₁ s₁ result₁ step₁ ok₁ held₁ => ?_
  obtain ⟨head₁, requiredHosts⟩ := result₁
  obtain ⟨env₁, new₁, goes₁⟩ := held₁
  refine Built.bind (Built.bindSupplied ok₁ env₁ _ list.optional)
    fun W₂ s₂ result₂ step₂ ok₂ held₂ => ?_
  obtain ⟨head₂, optionalHosts⟩ := result₂
  obtain ⟨env₂, new₂, goes₂⟩ := held₂
  have before₂ := step₁.trans step₂
  have known : MadeFor W₂ s₁.counters s₂.counters (list.optional.zip optionalHosts) := by
    refine ⟨fun param member => new₂.made _ (List.of_mem_zip member).2, ?_, fun param member =>
      before₂.datum (defaults.optional _ (List.of_mem_zip member).1)⟩
    rw [List.map_snd_zip (Nat.le_of_eq new₂.length)]
    exact new₂.nodup
  refine Built.bind (Built.bindDefaults forms ok₂ env₂ list.required.length known)
    fun W₃ s₃ head₃ step₃ ok₃ held₃ => ?_
  obtain ⟨env₃, goes₃⟩ := held₃
  rw [List.map_snd_zip (Nat.le_of_eq new₂.length)] at goes₃
  have ends : ∀ W₅ s₅ head₅, Further W₃ s₃ W₅ s₅ → CompilerOk W₅ s₅ → HeadOk W₅ s₅ head₅ →
      Goes [] s₃ s₅ head₃ head₅ (fun frame => ∃ count, frame.Called count) (fun _ => True) →
      Built W₅ s₅ (pure (head₅, requiredHosts ++ optionalHosts))
        (ParametersFor s context.env (list.required.length + list.optional.length)) := by
    intro W₅ s₅ head₅ step₅ ok₅ env₅ goes₅
    have after₂ := step₃.trans step₅
    have new := new₁.append new₂ step₁.progress.counters step₂.progress.counters
    have more := new.append (.nil s₂.counters s₅.counters)
      (step₁.trans step₂).progress.counters after₂.progress.counters
    rw [List.append_nil, Nat.add_zero] at more
    have onward : ∀ count, list.required.length + 1 ≤ count → Goes [] s₂ s₅ head₂ head₅
        (fun frame => frame.Called count ∧ frame.Awaits count list.required.length optionalHosts)
        fun _ => True := by
      intro count enough
      refine (goes₃ count enough).mono (fun _ _ later held _ => ?_) |>.trans goes₅ step₅.progress
        fun _ _ _ _ called => called
      exact ⟨count, later.called held.1⟩
    obtain ⟨around, finish, derives⟩ :=
      Goes.positional step₁.progress step₂.progress new₁ new₂ goes₁ goes₂
    refine Built.gives ok₅ ⟨env₅, more, fun late frame manyValues count body kind last serves
      positive rest => ?_⟩
    have called : (frame.enter manyValues count (requiredHosts ++ optionalHosts)).Called count :=
      (new.canEnter serves (after₂.progress.trans last).counters).called manyValues
    by_cases enough : list.required.length + 1 ≤ count
    · obtain ⟨inner, finishInner, derivesInner⟩ := onward count enough
      rw [finishInner, finish]
      refine called.arity positive list fun _ => ?_
      refine derives late frame manyValues count _ kind (after₂.progress.trans last) serves enough
        fun frame₂ serves₂ later₂ held₂ => ?_
      exact derivesInner late frame₂ body kind last serves₂ held₂ fun frame' serves' later' _ =>
        rest frame' serves' (later₂.trans later')
    · obtain ⟨inner, finishInner, -⟩ := onward _ (Nat.le_refl _)
      rw [finishInner, finish]
      exact called.arity positive list fun sufficient => (enough sufficient).elim
  have keys : ∀ W₄ s₄ head₄, Further W₃ s₃ W₄ s₄ → CompilerOk W₄ s₄ → HeadOk W₄ s₄ head₄ →
      Goes [] s₃ s₄ head₃ head₄ (fun frame => ∃ count, frame.Called count) (fun _ => True) →
      Built W₄ s₄ (do
        let head ← if list.hasKeys then
            Compiler.bindKeySection compile context specials head₄ list
              (list.required.length + list.optional.length + 1)
          else pure head₄
        return (head, requiredHosts ++ optionalHosts))
        (ParametersFor s context.env (list.required.length + list.optional.length)) := by
    intro W₄ s₄ head₄ step₄ ok₄ env₄ goes₄
    split
    · refine Built.bind (Built.bindKeySection forms ok₄ env₄ (by omega)
        ((defaults.further before₂).further (step₃.trans step₄))) fun W₅ s₅ head₅ step₅ ok₅ held => ?_
      refine ends W₅ s₅ head₅ (step₄.trans step₅) ok₅ held.1 (goes₄.mono
        (fun _ _ later called _ => ?_) |>.trans held.2 step₅.progress fun _ _ _ _ called => called)
      exact called.imp fun _ called => later.called called
    · exact ends W₄ s₄ head₄ step₄ ok₄ env₄ goes₄
  dsimp only
  split
  · refine Built.bind (Built.bindRest ok₃ env₃ (by omega) _) fun W₄ s₄ head₄ step₄ ok₄ held => ?_
    exact keys W₄ s₄ head₄ step₄ ok₄ held.1 held.2
  · exact keys W₃ s₃ head₃ (Further.refl _ _) ok₃ env₃ (Goes.refl fun _ _ => trivial)

end Parameters

section Functions

variable {W : World} {s s' : CompileState} {compile : FormCompiler} {context : Context}
  {list : Value} {body : List Value}

/-- A function with its properties, if it has any. -/
def functionCode (holder : String) (hosts : List String) (body : List Stmt)
    (properties : List (String × String)) : Expr :=
  if properties.isEmpty then .function ("values" :: hosts) body
  else propertiesCode holder (.function ("values" :: hosts) body) properties

/-- What a lambda expression is compiled to. A function with a name keeps the name as a property. -/
structure MakesFunction (env : Environment) (named : Bool) (s s' : CompileState) (code : Expr) :
    Prop where
  parts : ∃ holder hosts body properties, code = functionCode holder hosts body properties ∧
    holder ∉ reservedNames ∧ (named → properties ≠ []) ∧
    Everywhere env s s' fun frame => frame.IsBody hosts body

theorem Derivable.properties {frame : Frame} {holder : String} {code : Expr}
    (unreserved : holder ∉ reservedNames) (function : Derivable frame (.expr code .function))
    (properties : List (String × String)) :
    Derivable frame (.expr (propertiesCode holder code properties) .function) := by
  have known : Derivable (frame.inside.bind holder .function) (.expr (.ident holder) .function) :=
    .ident (Frame.bind_self _ _ _)
  refine .inPlace (fun same => unreserved (same ▸ by decide)) ?_
    (fun same => (unreserved (same ▸ by decide)).elim) function ?_
  · exact id
  · induction properties with
    | nil => exact .ret known
    | cons property rest ih => exact .effect (.assignProperty known .string) ih

theorem Frame.IsBody.derivable {frame : Frame} {hosts : List String} {body : List Stmt}
    (isBody : frame.IsBody hosts body) :
    Derivable frame (.expr (.function ("values" :: hosts) body) .function) :=
  .function isBody.1 isBody.2

theorem MakesFunction.codes {env : Environment} {named : Bool} {code : Expr}
    (makes : MakesFunction env named s s' code) :
    Codes env s s' code .datum := by
  obtain ⟨holder, hosts, body, properties, rfl, unreserved, -, isBody⟩ := makes.parts
  intro late frame progress serves
  have function := (isBody late frame progress serves).derivable
  refine .widen Kind.function_within_datum ?_
  unfold functionCode
  split
  · exact function
  · exact .properties unreserved function properties

/-- A function that is called where it stands. -/
theorem MakesFunction.call {env : Environment} {named : Bool} {code : Expr}
    (makes : MakesFunction env named s s' code) :
    Everywhere env s s' fun frame => ∀ acceptor manyValues args,
      frame.Accepts acceptor manyValues → (∀ arg ∈ args, Derivable frame (.expr arg .datum)) →
        Derivable frame (.expr (.call code (acceptor :: args)) (.result manyValues)) := by
  obtain ⟨holder, hosts, body, properties, rfl, unreserved, -, isBody⟩ := makes.parts
  intro late frame progress serves acceptor manyValues args accepts data
  have body := isBody late frame progress serves
  unfold functionCode
  split
  · exact .callLiteral accepts body.1 body.2 data
  · refine .call nofun accepts ?_ data
    exact .widen Kind.function_within_datum (.properties unreserved body.derivable properties)

theorem Built.withProperties (ok : CompilerOk W s) (hosts : List String) (body : List Stmt)
    (properties : List (String × String)) :
    Built W s (Compiler.withProperties (.function ("values" :: hosts) body) properties)
      fun _ _ code => ∃ holder, holder ∉ reservedNames ∧
        code = functionCode holder hosts body properties := by
  unfold Compiler.withProperties
  split
  · rename_i none_
    refine Built.gives ok ⟨"", by decide, ?_⟩
    rw [functionCode, if_pos none_]
  · rename_i some_
    refine Built.bind (Built.freshVariable ok "f") fun W₁ s₁ holder _ ok₁ made => ?_
    refine Built.gives ok₁ ⟨holder, made.unreserved, ?_⟩
    rw [functionCode, if_neg some_]
    rfl

theorem Built.nameOf (ok : CompilerOk W s) (name : Option SymbolId) :
    Built W s (name.mapM Compiler.symbolName) fun _ _ text => text.isSome = name.isSome := by
  cases name with
  | none => exact Built.gives ok rfl
  | some name =>
      have named : Built W s (Compiler.symbolName name) fun _ _ _ => True :=
        Built.reads ok rfl trivial
      refine Built.bind named fun _ _ text _ ok' _ => Built.gives ok' ?_
      rfl

theorem Built.compileLambda (forms : CompilesForms compile) (ok : CompilerOk W s)
    (env : EnvOk W s context.env) (datum : W.Datum list) (data : W.Data body)
    (name : Option SymbolId) :
    Built W s (Compiler.compileLambda compile context list body name) fun _ s' code =>
      MakesFunction context.env name.isSome s s' code := by
  refine Built.bind (Built.parseLambdaList ok datum) fun W₁ s₁ list step₁ ok₁ defaults => ?_
  refine Built.bind (Built.parseBody ok₁ (step₁.data data) true)
    fun W₂ s₂ body step₂ ok₂ dataForms => ?_
  have before₂ := step₁.trans step₂
  refine Built.bind (Built.forM (fun W s => EnvOk W s context.env) ok₂ (env.further before₂)
    fun id _ W s ok env => Builds.since (Built.checkBindable ok env id)
      fun _ _ _ further _ => env.further further) fun W₃ s₃ _ step₃ ok₃ env₃ => ?_
  have rest : ∀ W₄ s₄ items, Further W₃ s₃ W₄ s₄ → CompilerOk W₄ s₄ → W₄.Data items →
      Built W₄ s₄ (do
        let entered ← Compiler.bindParameters compile context body.declarations.specials list
        let env ← Compiler.applyFreeDeclarations entered.1.env body.declarations list.boundVars
        let stmts ← Compiler.compileBody compile { env, manyValues := true } items
        let function := Expr.function ("values" :: entered.2) (entered.1.prologue.finish stmts)
        let fname ← name.mapM Compiler.symbolName
        Compiler.withProperties function (fname.toList.map (("fname", ·)) ++
          body.docstring.toList.map (("docstring", ·)))) fun _ s' code =>
        MakesFunction context.env name.isSome s s' code := by
    intro W₄ s₄ items step₄ ok₄ dataItems
    have before₄ := (before₂.trans step₃).trans step₄
    refine Built.bind (Built.bindParameters ok₄ forms (env.further before₄)
      (defaults.further ((step₂.trans step₃).trans step₄))) fun W₅ s₅ result step₅ ok₅ entered => ?_
    obtain ⟨head, hosts⟩ := result
    refine Built.bind (Built.applyFreeDeclarations ok₅ entered.ok _ _)
      fun W₆ s₆ env₆ step₆ ok₆ stands => ?_
    have inside : EnvOk W₆ s₆ { env := env₆, manyValues := true : Context }.env := stands.ok
    refine Built.bind (Built.compileBody forms ok₆ inside ((step₅.trans step₆).data dataItems))
      fun W₇ s₇ stmts step₇ ok₇ delivers => ?_
    have isBody : Everywhere context.env s s₇ fun frame =>
        frame.IsBody hosts (head.prologue.finish stmts) := by
      intro late frame last serves
      have serves₄ := serves.later before₄.progress.counters
      have canEnter := entered.hosts.canEnter serves₄
        ((step₆.trans step₇).progress.trans last).counters
      refine ⟨canEnter, fun manyValues count positive _ => ?_⟩
      refine entered.enters late frame manyValues count stmts _
        ((step₆.trans step₇).progress.trans last) serves₄ positive fun frame' serves' later => ?_
      refine delivers late frame' last ?_ manyValues (.inr ⟨rfl, ?_⟩)
      · exact (serves'.later step₆.progress.counters).noMore stands.noMore
      · exact later.kept _ _ (canEnter.values manyValues)
    refine Built.bind (Built.nameOf ok₇ name) fun W₈ s₈ fname step₈ ok₈ same => ?_
    refine Builds.since (Built.withProperties ok₈ hosts (head.prologue.finish stmts) _)
      fun W₉ s₉ code step₉ held => ?_
    obtain ⟨holder, unreserved, rfl⟩ := held
    refine ⟨holder, hosts, _, _, rfl, unreserved, fun named => ?_,
      isBody.widen (Progress.refl s) (step₈.trans step₉).progress⟩
    cases fname with
    | none => simp [← same] at named
    | some text => simp
  cases name with
  | none => exact rest W₃ s₃ body.forms (Further.refl _ _) ok₃ (step₃.data dataForms)
  | some name =>
      refine Built.bind (Built.newList ok₃ (step₃.data dataForms))
        fun W₄ s₄ list₄ step₄ ok₄ datum₄ => ?_
      refine Built.bind (Built.newListWithTail ok₄ (.ofName (by decide)
        (.one (W₄.datum_ofSymbol name))) datum₄) fun W₅ s₅ form step₅ ok₅ datum₅ => ?_
      exact rest W₅ s₅ [form] (step₄.trans step₅) ok₅ (.one datum₅)

end Functions

end LispScript.Discipline
