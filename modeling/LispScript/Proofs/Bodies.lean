import LispScript.Proofs.Units

/-!
Bodies, sequences and variables. What declarations put in front of an environment asks nothing new of
the frames that serve it, so code compiled there runs where the environment is served.
-/

namespace LispScript.Discipline

open Script Machine Compiler

section Declarations

variable {W : World} {s : CompileState}

theorem Built.isDeclaration (ok : CompilerOk W s) {form : Value} (datum : W.Datum form) :
    Built W s (Compiler.isDeclaration form) fun _ _ _ => True :=
  Built.bind (Built.carOf? ok datum) fun _ _ _ _ ok' _ => Built.gives ok' trivial

theorem Built.addDeclared (ok : CompilerOk W s) (form : Value) (kind : SymbolId) (specs : DeclSpecs)
    (names : List Value) :
    Built W s (Compiler.addDeclared form kind specs names) fun _ _ _ => True := by
  induction names generalizing specs with
  | nil => exact Built.gives ok trivial
  | cons name rest ih =>
      rw [Compiler.addDeclared]
      split
      · exact ih _
      · exact Built.malformed ok _ _

theorem Built.addSpecifiers (ok : CompilerOk W s) (form : Value) (specs : DeclSpecs)
    (specifiers : List Value) :
    Built W s (Compiler.addSpecifiers form specs specifiers) fun _ _ _ => True := by
  induction specifiers generalizing W s specs with
  | nil => exact Built.gives ok trivial
  | cons specifier rest ih =>
      rw [Compiler.addSpecifiers]
      refine Built.ofHeap ?_
      split
      · exact Built.malformed ok _ _
      · exact ih ok _
      · split
        · split
          · exact Built.bind (Built.addDeclared ok _ _ _ _) fun _ _ specs _ ok' _ => ih ok' specs
          · exact ih ok _
        · exact ih ok _

theorem Built.parseDeclaration (ok : CompilerOk W s) {form : Value} (datum : W.Datum form)
    (specs : DeclSpecs) :
    Built W s (Compiler.parseDeclaration form specs) fun _ _ _ => True := by
  refine Built.bind (Built.restItems? ok datum) fun W' s' items? _ ok' _ => ?_
  split
  · exact Built.addSpecifiers ok' _ _ _
  · exact Built.malformed ok' _ _

theorem Built.parseBodyFrom (ok : CompilerOk W s) (body : Body) (allowDocstring : Bool)
    {forms : List Value} (data : W.Data forms) :
    Built W s (Compiler.parseBodyFrom body allowDocstring forms) fun W' _ body =>
      W'.Data body.forms := by
  induction forms generalizing W s body with
  | nil => exact Built.gives ok nofun
  | cons form rest ih =>
      obtain ⟨datum, others⟩ := World.data_cons.mp data
      cases form
      case string address text =>
        rw [Compiler.parseBodyFrom]
        split
        · exact ih ok _ others
        · exact Built.gives ok data
      all_goals
        simp only [Compiler.parseBodyFrom]
        refine Built.bind (Built.isDeclaration ok datum) fun W₁ s₁ found first ok₁ _ => ?_
        split
        · refine Built.bind (Built.parseDeclaration ok₁ (first.datum datum) _)
            fun W₂ s₂ _ second ok₂ _ => ?_
          exact ih ok₂ _ (second.data (first.data others))
        · exact Built.gives ok₁ (first.data data)

theorem Built.parseBody (ok : CompilerOk W s) {forms : List Value} (data : W.Data forms)
    (allowDocstring : Bool) :
    Built W s (Compiler.parseBody forms allowDocstring) fun W' _ body => W'.Data body.forms :=
  Built.parseBodyFrom ok _ _ data

end Declarations

section FreeDeclarations

/-- One environment asks of frames what another asks, at most. -/
def AsksNoMore (env env' : Environment) : Prop :=
  ∀ late frame, (∀ binding ∈ env, Asks late frame binding) →
    ∀ binding ∈ env', Asks late frame binding

variable {W : World} {s : CompileState} {env env' env'' : Environment}

theorem AsksNoMore.refl (env : Environment) : AsksNoMore env env := fun _ _ asks => asks

theorem AsksNoMore.trans (first : AsksNoMore env env') (second : AsksNoMore env' env'') :
    AsksNoMore env env'' :=
  fun late frame asks => second late frame (first late frame asks)

theorem Frame.ServesBut.noMore {params : List String} {frame : Frame} {c : Counters}
    {late : CompileState} (serves : frame.ServesBut params env c late)
    (noMore : AsksNoMore env env') :
    frame.ServesBut params env' c late :=
  ⟨serves.unmade, noMore late frame serves.bindings, serves.literals⟩

theorem Everywhere.noMore {s' : CompileState} {P : Frame → Prop} (every : Everywhere env' s s' P)
    (noMore : AsksNoMore env env') :
    Everywhere env s s' P :=
  fun late frame progress serves => every late frame progress (Frame.ServesBut.noMore serves noMore)

/-- An environment in place of another. -/
structure Stands (env : Environment) (W : World) (s : CompileState) (env' : Environment) : Prop where
  ok : EnvOk W s env'
  noMore : AsksNoMore env env'

/-- A copy of the binding of a variable or a function asks what the binding does. -/
theorem Resolved.copy {space : Namespace} {binding shadow : Binding}
    (resolved : Resolved W s env space binding) (isName : space = .vars ∨ space = .functions)
    (space_eq : shadow.space = binding.space) (reference : shadow.reference = binding.reference) :
    AsksNoMore env (shadow :: env) := by
  intro late frame asks other member
  rcases List.mem_cons.mp member with rfl | member
  · rcases resolved.found with ⟨inside, place⟩ | isGlobal
    · have known := asks binding inside
      unfold Asks at known ⊢
      rw [reference, space_eq, place]
      rw [place] at known
      split at known
      · exact known
      · exact fun same => by rcases isName with h | h <;> rw [h] at same <;> cases same
      · exact fun same => by rcases isName with h | h <;> rw [h] at same <;> cases same
      · trivial
    · unfold Asks
      rw [reference]
      cases held : binding.reference with
      | slot => trivial
      | expander function => trivial
      | constant value => trivial
      | _ => exact (held ▸ isGlobal).elim
  · exact asks other member

theorem Built.redeclare (ok : CompilerOk W s) (known : EnvOk W s env) (id : SymbolId)
    {space : Namespace} (isName : space = .vars ∨ space = .functions)
    {change : Binding → Bindings → Bindings}
    (changes : ∀ binding, ∃ f : Declarations → Declarations,
      (∀ d : Declarations, d.used = true → (f d).used = true) ∧
        change binding = fun bindings => bindings.updateDeclared binding f) :
    Built W s (Compiler.redeclare env id space change) (Stands env) := by
  have inside : EnvOk W s { env : Context }.env := known
  refine Built.bind (Built.resolve ok inside _ space) fun W₁ s₁ current? first ok₁ resolved => ?_
  split
  · exact Built.gives ok₁ ⟨known.further first, AsksNoMore.refl env⟩
  · rename_i current
    have found := resolved current rfl
    refine Built.bind (Built.shadow ok₁ found.ok) fun W₂ s₂ shadow second ok₂ new => ?_
    obtain ⟨f, kept, same⟩ := changes shadow
    rw [same]
    refine Built.bind (Built.updateDeclared ok₂ shadow kept) fun W₃ s₃ _ third ok₃ _ => ?_
    refine Built.gives ok₃ ⟨fun other member => ?_,
      found.copy isName new.space_eq new.reference_eq⟩
    rcases List.mem_cons.mp member with rfl | member
    · exact new.ok.further third
    · exact (known other member).further ((first.trans second).trans third)

theorem Built.redeclareAll (ok : CompilerOk W s) (stands : Stands env W s env')
    (ids : List SymbolId) {space : Namespace} (isName : space = .vars ∨ space = .functions)
    {change : Binding → Bindings → Bindings}
    (changes : ∀ binding, ∃ f : Declarations → Declarations,
      (∀ d : Declarations, d.used = true → (f d).used = true) ∧
        change binding = fun bindings => bindings.updateDeclared binding f) :
    Built W s (ids.foldlM (fun env id => Compiler.redeclare env id space change) env')
      (Stands env) :=
  Built.foldlM ok stands fun id _ _ _ _ ok stands =>
    (Built.redeclare ok stands.ok id isName changes).mono fun _ _ _ more =>
      ⟨more.ok, stands.noMore.trans more.noMore⟩

theorem Built.applyFreeDeclarations (ok : CompilerOk W s) (known : EnvOk W s env)
    (specs : DeclSpecs) (bound : List SymbolId) :
    Built W s (Compiler.applyFreeDeclarations env specs bound) (Stands env) := by
  refine Built.bind (Built.redeclareAll ok ⟨known, AsksNoMore.refl env⟩ _ (.inl rfl)
    fun _ => ⟨fun d => { d with special := true }, fun _ used => used, rfl⟩)
    fun W₁ s₁ env₁ _ ok₁ stands₁ => ?_
  refine Built.bind (Built.redeclareAll ok₁ stands₁ _ (.inr rfl)
    fun _ => ⟨fun d => { d with notInline := true }, fun _ used => used, rfl⟩)
    fun W₂ s₂ env₂ _ ok₂ stands₂ => ?_
  exact Built.redeclareAll ok₂ stands₂ _ (.inr rfl)
    fun _ => ⟨fun d => { d with notInline := false }, fun _ used => used, rfl⟩

end FreeDeclarations

section Sequences

variable {W : World} {s s' : CompileState} {compile : FormCompiler} {context : Context}
  {items : List Value} {form : Value}

theorem Built.compileSingle (forms : CompilesForms compile) (ok : CompilerOk W s)
    (env : EnvOk W s context.env) (datum : W.Datum form) :
    Built W s (Compiler.compileSingle compile context form) fun _ s' code =>
      Codes context.env s s' code .datum :=
  (forms W s context.single form ok env datum).mono fun _ _ _ compiles => compiles.single

/-- Code for each item of a list. -/
abbrev CodesAll (env : Environment) (s s' : CompileState) (codes : List Expr) : Prop :=
  ∀ code ∈ codes, Codes env s s' code .datum

theorem CodesAll.everywhere {env : Environment} {codes : List Expr}
    (all : CodesAll env s s' codes) :
    Everywhere env s s' fun frame => ∀ code ∈ codes, Derivable frame (.expr code .datum) :=
  fun late frame progress serves code member => all code member late frame progress serves

theorem Built.compileArgs (forms : CompilesForms compile) (ok : CompilerOk W s)
    (env : EnvOk W s context.env) (data : W.Data items) :
    Built W s (Compiler.compileArgs compile context items) fun _ s' codes =>
      codes.length = items.length ∧ CodesAll context.env s s' codes := by
  refine (Built.mapM (fun W s => EnvOk W s context.env ∧ W.Data items)
    (fun _ s _ s' code => Codes context.env s s' code .datum) ok ⟨env, data⟩ ?_ ?_ ?_).mono
    fun _ _ _ all => forall_of_forall₂ all fun _ _ codes => codes
  · exact fun _ _ _ _ known further => ⟨known.1.further further, further.data known.2⟩
  · exact fun _ _ _ _ _ _ _ _ before codes after => codes.widen before after.progress
  · exact fun item member W s ok known => Built.compileSingle forms ok known.1 (known.2 item member)

/-- A bundle is made by a scope of its own, in which `values` packs values. -/
theorem Compiles.bundle {code : Expr} (compiles : Compiles context.many s s' code) :
    Codes context.env s s' (.wrap [.define "values" (.routine .packValues), .ret code]) .many := by
  intro late frame progress serves
  refine .bundle (compiles late _ progress ?_ true (.inr ⟨rfl, Frame.bind_self _ _ _⟩))
  exact (Frame.ServesBut.inside serves).bindReserved (by decide) _

theorem Built.compileBundle (forms : CompilesForms compile) (ok : CompilerOk W s)
    (env : EnvOk W s context.env) (datum : W.Datum form) :
    Built W s (Compiler.compileBundle compile context form) fun _ s' code =>
      Codes context.env s s' code .many :=
  Built.bind (forms W s context.many form ok env datum) fun _ _ _ _ ok' compiles =>
    Built.gives ok' compiles.bundle

theorem Built.compileCall (forms : CompilesForms compile) (ok : CompilerOk W s)
    (env : EnvOk W s context.env) {callee : Expr} {before : CompileState} (since : Progress before s)
    (calls : Everywhere context.env before s fun frame => ∀ acceptor manyValues args,
      frame.Accepts acceptor manyValues → (∀ arg ∈ args, Derivable frame (.expr arg .datum)) →
        Derivable frame (.expr (.call callee (acceptor :: args)) (.result manyValues)))
    (data : W.Data items) :
    Built W s (Compiler.compileCall compile context callee items) fun _ s' code =>
      Compiles context before s' code := by
  refine Built.bind (Built.compileArgs forms ok env data) fun W' s' codes further ok' all => ?_
  refine Built.gives ok' fun late frame progress serves manyValues accepts => ?_
  refine calls late frame (further.progress.trans progress) serves _ _ _ accepts ?_
  exact all.2.everywhere late frame progress (serves.later since.counters)

theorem Built.compileEffects (forms : CompilesForms compile) (ok : CompilerOk W s)
    (env : EnvOk W s context.env) (data : W.Data items) :
    Built W s (Compiler.compileEffects compile context items) fun _ s' codes =>
      CodesAll context.env s s' codes :=
  Built.bind (Built.compileArgs forms ok env data) fun _ _ _ _ ok' all =>
    Built.gives ok' fun code member => all.2 code (List.mem_filter.mp member).1

/-- Statements that deliver the values of the last one where the context wants them. -/
abbrev Delivers (context : Context) (s s' : CompileState) (stmts : List Stmt) : Prop :=
  Everywhere context.env s s' fun frame => ∀ manyValues, frame.Accepts context.acceptor manyValues →
    Derivable frame (.returns stmts (.result manyValues))

theorem Derivable.nil_result (frame : Frame) (manyValues : Bool) :
    Derivable frame (.expr .nil (.result manyValues)) :=
  .widen (Kind.datum_within_result manyValues) (.widen Kind.symbol_within_datum .nil)

theorem Derivable.effects {frame : Frame} {codes : List Expr} {code : List Stmt} {kind : Kind}
    (effects : ∀ e ∈ codes, Derivable frame (.expr e .datum))
    (rest : Derivable frame (.returns code kind)) :
    Derivable frame (.returns (codes.map .effect ++ code) kind) := by
  induction codes with
  | nil => exact rest
  | cons e codes ih =>
      obtain ⟨first, others⟩ := List.forall_mem_cons.mp effects
      exact .effect first (ih others)

/-- A sequence of forms: the effects of all but the last, and the last. -/
theorem Built.sequence (forms : CompilesForms compile) (ok : CompilerOk W s)
    (env : EnvOk W s context.env) (data : W.Data items) {last : Value}
    (isLast : items.getLast? = some last) {assemble : List Expr → Expr → β}
    {post : World → CompileState → β → Prop}
    (held : ∀ W' s' effects value, CodesAll context.env s s' effects →
      Compiles context s s' value → post W' s' (assemble effects value)) :
    Built W s (do
      let effects ← Compiler.compileEffects compile context items.dropLast
      return assemble effects (← compile context last)) post := by
  refine Built.bind (Built.compileEffects forms ok env fun item member =>
    data item (List.mem_of_mem_dropLast member)) fun W₁ s₁ effects first ok₁ all => ?_
  refine Built.bind (forms W₁ s₁ context last ok₁ (env.further first)
    (first.datum (data last (List.mem_of_getLast? isLast)))) fun W₂ s₂ value second ok₂ compiles => ?_
  refine Built.gives ok₂ (held W₂ s₂ effects value (fun code member => ?_) ?_)
  · exact (all code member).widen (Progress.refl s) second.progress
  · exact compiles.widen first.progress (Progress.refl s₂)

theorem Built.compileBody (forms : CompilesForms compile) (ok : CompilerOk W s)
    (env : EnvOk W s context.env) (data : W.Data items) :
    Built W s (Compiler.compileBody compile context items) fun _ s' stmts =>
      Delivers context s s' stmts := by
  unfold Compiler.compileBody
  split
  · exact Built.gives ok fun late frame _ _ manyValues _ => .ret (Derivable.nil_result frame _)
  · rename_i last isLast
    refine Built.sequence forms ok env data isLast fun _ _ effects value all compiles => ?_
    intro late frame progress serves manyValues accepts
    exact Derivable.effects (all.everywhere late frame progress serves)
      (.ret (compiles late frame progress serves manyValues accepts))

theorem Built.compileProgn (forms : CompilesForms compile) (ok : CompilerOk W s)
    (env : EnvOk W s context.env) (data : W.Data items) :
    Built W s (Compiler.compileProgn compile context items) fun _ s' code =>
      Compiles context s s' code := by
  unfold Compiler.compileProgn
  split
  · exact Built.gives ok fun late frame _ _ manyValues _ => Derivable.nil_result frame _
  · rename_i last isLast
    refine Built.sequence forms ok env data isLast fun _ _ effects value all compiles => ?_
    split
    · exact compiles
    · intro late frame progress serves manyValues accepts
      exact .comma (all.everywhere late frame progress serves)
        (compiles late frame progress serves manyValues accepts)

end Sequences

section Variables

variable {W : World} {s : CompileState} {context : Context}

theorem Built.isConstantSymbol (ok : CompilerOk W s) (env : EnvOk W s context.env) (id : SymbolId) :
    Built W s (Compiler.isConstantSymbol context id) fun _ _ _ => True := by
  refine Built.ofSymbols ?_
  split
  · exact Built.gives ok trivial
  · refine Built.bind (Built.resolve ok env _ _) fun _ _ binding? _ ok' _ => ?_
    split
    · exact Built.ofDeclared (Built.gives ok' trivial)
    · exact Built.gives ok' trivial

theorem Built.checkBindable (ok : CompilerOk W s) (env : EnvOk W s context.env) (id : SymbolId) :
    Built W s (Compiler.checkBindable context id) fun _ _ _ => True := by
  refine Built.bind (Built.isConstantSymbol ok env id) fun _ _ constant _ ok' _ => ?_
  split
  · exact Built.named (Built.fails ok' trivial)
  · exact Built.gives ok' trivial

theorem Built.bindsSpecial (ok : CompilerOk W s) (id : SymbolId) (specials : List SymbolId) :
    Built W s (Compiler.bindsSpecial id specials) fun _ _ _ => True := by
  unfold Compiler.bindsSpecial
  split
  · exact Built.gives ok trivial
  · refine Built.ofState ?_
    dsimp only
    split
    · exact Built.gives ok trivial
    · exact Built.gives ok trivial

/-- What a variable that was bound a moment ago asks for. -/
theorem Built.variableBinding (ok : CompilerOk W s) (id : SymbolId) (host : String)
    (special : Bool) :
    Built W s (Compiler.variableBinding id host special) fun W' s' binding =>
      BindingOk W' s' binding ∧
        ∀ late frame, Frame.Has frame host .datum → Asks late frame binding := by
  unfold Compiler.variableBinding
  cases special with
  | true =>
      have slot : ReferenceOk W .slot := trivial
      refine Built.bind (Built.newBinding ok _ _ slot) fun _ _ binding _ ok₁ new => ?_
      refine Built.bind (Built.updateDeclared ok₁ binding fun _ used => used)
        fun _ _ _ further ok₂ _ => Built.gives ok₂ ⟨new.ok.further further, fun late frame _ => ?_⟩
      rw [Asks, new.reference_eq]
      trivial
  | false =>
      have plain : ReferenceOk W (.host host) := trivial
      refine (Built.newBinding ok _ _ plain).mono fun _ _ binding new =>
        ⟨new.ok, fun late frame has => ?_⟩
      rw [Asks, new.reference_eq]
      exact has

theorem Built.hostVariable? (ok : CompilerOk W s) (binding : Binding) :
    Built W s (Compiler.hostVariable? binding) fun _ _ host? =>
      ∀ name ∈ host?, binding.reference = .host name := by
  unfold Compiler.hostVariable?
  split
  · rename_i name reference
    refine Built.ofDeclared (Built.gives ok ?_)
    split
    · exact nofun
    · rintro _ ⟨⟩
      exact reference
  · exact Built.gives ok nofun

/-- The frame knows the script variable that a name stands for. -/
theorem Resolved.host {env : Environment} {space : Namespace} {binding : Binding} {name : String}
    (resolved : Resolved W s env space binding) (reference : binding.reference = .host name)
    {frame : Frame} {c : Counters} {late : CompileState} (serves : frame.Serves env c late) :
    frame.Has name .datum := by
  rcases resolved.found with ⟨inside, -⟩ | isGlobal
  · have asks := serves.bindings binding inside
    rwa [Asks, reference] at asks
  · rw [reference] at isGlobal
    exact isGlobal.elim

theorem Built.compileSymbol (ok : CompilerOk W s) (env : EnvOk W s context.env) (id : SymbolId) :
    Built W s (Compiler.compileSymbol context id) fun _ s' code =>
      Codes context.env s s' code .datum := by
  refine Built.ofSymbols ?_
  split
  · exact (Built.symbolLiteral ok id).mono fun _ _ _ symbol => symbol.literal.datum.codes
  · refine Built.bind (Built.resolve ok env _ _) fun W₁ s₁ binding? first ok₁ resolved => ?_
    split
    · exact Built.described (Built.fails ok₁ trivial)
    · rename_i binding
      have found := resolved binding rfl
      refine Built.bind (Built.markUsed ok₁ found.ok) fun W₂ s₂ _ second ok₂ _ => ?_
      split
      · exact (Built.literal ok₂ _).mono fun _ _ _ literal => literal.codes
      · refine Built.bind (Built.hostVariable? ok₂ binding) fun W₃ s₃ host? third ok₃ isHost => ?_
        split
        · rename_i name
          exact Built.gives ok₃ fun late frame progress serves =>
            .ident (found.host (isHost name rfl) serves).known
        · refine Built.bind (Built.symbolLiteral ok₃ id) fun W₄ s₄ code _ ok₄ symbol => ?_
          refine Built.gives ok₄ fun late frame progress serves => .primitive rfl ?_
          simpa using symbol.literal.datum.codes late frame progress serves

/-- A place that values can be assigned to. -/
abbrev Place (env : Environment) (s s' : CompileState) (place : Expr) : Prop :=
  Everywhere env s s' fun frame => ∀ value, Derivable frame (.expr value .datum) →
    Derivable frame (.expr (.assign place value) .datum)

theorem Built.variablePlace (ok : CompilerOk W s) (env : EnvOk W s context.env) (id : SymbolId) :
    Built W s (Compiler.variablePlace context id) fun _ s' place =>
      Place context.env s s' place := by
  refine Built.bind (Built.isConstantSymbol ok env id) fun W₁ s₁ constant first ok₁ _ => ?_
  split
  · exact Built.named (Built.fails ok₁ trivial)
  · refine Built.bind (Built.resolve ok₁ (env.further first) _ _)
      fun W₂ s₂ binding? second ok₂ resolved => ?_
    split
    · exact Built.described (Built.fails ok₂ trivial)
    · rename_i binding
      have found := resolved binding rfl
      refine Built.bind (Built.markUsed ok₂ found.ok) fun W₃ s₃ _ third ok₃ _ => ?_
      refine Built.bind (Built.hostVariable? ok₃ binding) fun W₄ s₄ host? fourth ok₄ isHost => ?_
      split
      · rename_i name
        exact Built.gives ok₄ fun late frame progress serves value derivable =>
          .assign (found.host (isHost name rfl) serves).known derivable
      · refine Built.bind (Built.symbolLiteral ok₄ id) fun W₅ s₅ code _ ok₅ symbol => ?_
        refine Built.gives ok₅ fun late frame progress serves value derivable => ?_
        exact .assignSlot Kind.datum_within_optional (symbol.codes late frame progress serves)
          derivable

end Variables

end LispScript.Discipline
