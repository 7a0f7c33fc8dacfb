import LispScript.Proofs.DefaultScopes
import LispScript.Proofs.DynamicBindings

/-!
Where bodies run. Forms with bindings and functions put statements before their bodies that bind the
variables. Wherever these statements have come to their end, the scope has what the body's environment
asks for: each variable, new or not, has a value of the language.
-/

namespace LispScript.Discipline

open Script Machine Compiler

section Statements

variable {call : Caller} {turns : Nat} {frame frame' frame'' : Frame} {first second : List Stmt}
  {fact more : Prop} {entries : List Entry}

theorem Advances.append (leads : Advances call turns frame first fact frame')
    (onward : Advances call turns frame' second more frame'') :
    Advances call turns frame (first ++ second) more frame'' := by
  intro W₀ W image b j extends_ describes own ran
  obtain ⟨i, ran, ranRest⟩ := execBlock_append_normal ran
  obtain ⟨-, W₁, extends₁, leads₁, describes₁, own₁⟩ :=
    leads W₀ W image b i extends_ describes own ran
  obtain ⟨holds, W₂, extends₂, leads₂, describes₂, own₂⟩ :=
    onward W₀ W₁ i b j extends₁ describes₁ own₁ ranRest
  exact ⟨holds, W₂, extends₂, leads₁.trans leads₂, describes₂, own₂⟩

theorem Advances.none (call : Caller) (turns : Nat) (frame : Frame) :
    Advances call turns frame [] True frame := by
  intro W₀ W image b j extends_ describes own ran
  rw [execBlock] at ran
  cases ran
  exact ⟨trivial, W, extends_, .refl W image, describes, own⟩

/-- The statements at the head of a unit may be run through. -/
theorem Written.advances (written : Written entries) (caller : CallerSound call)
    (fresh : ∀ n, frame.kinds (literalName n) = none) :
    Advances call turns frame (entries.map Entry.stmt) True (frame.withLiterals entries) := by
  induction written with
  | nil => exact .none call turns frame
  | @snoc entries entry before value later ih =>
      rw [List.map_append, Frame.withLiterals_snoc]
      have unknown : (frame.withLiterals entries).kinds entry.name = none := by
        rw [Frame.withLiterals_of_ne fun other member => Entry.name_ne (later other member)]
        exact fresh entry.number
      exact ih.append (BlockSound.proceeds_bind (madeKind_not_token _)
        (.define ⟨unknown, literalName_unreserved _⟩ (madeKind_not_token _)
          ((value _ before.knows).sound caller) (.reached trivial)))

end Statements

section Assignments

variable {frame : Frame} {names : List String} {kind : Kind}

/-- The script variables that names of an environment stand for. -/
def hostsOf (env : Environment) : List String :=
  env.filterMap fun binding => match binding.reference with
    | .host name => some name
    | _ => none

theorem mem_hostsOf {env : Environment} {name : String} :
    name ∈ hostsOf env ↔ ∃ binding ∈ env, binding.reference = .host name := by
  rw [hostsOf, List.mem_filterMap]
  refine exists_congr fun binding => and_congr_right fun _ => ?_
  cases binding.reference <;> simp

/-- Code that assigns to variables, and so has a place only where they hold data. -/
def assigning (names : List String) : Expr :=
  names.foldr (fun name rest => .binary .add (.assign (.ident name) .nil) rest) .nil

theorem Derivable.assigning (known : ∀ name ∈ names, frame.kinds name = some .datum) :
    Derivable frame (.expr (assigning names) .datum) := by
  have nothing : Derivable frame (.expr .nil .datum) := .widen Kind.symbol_within_datum .nil
  induction names with
  | nil => exact nothing
  | cons name rest ih =>
      obtain ⟨here, others⟩ := List.forall_mem_cons.mp known
      exact .arithmetic (by decide) (.assign here nothing) (ih others)

theorem Derivable.of_assigning (derivable : Derivable frame (.expr (Discipline.assigning names) kind)) :
    ∀ name ∈ names, frame.kinds name = some .datum := by
  induction names generalizing kind with
  | nil => nofun
  | cons name rest ih =>
      obtain ⟨here, others⟩ := derivable.unfolds
      exact List.forall_mem_cons.mpr ⟨here.unfolds, ih others⟩

end Assignments

section Arriving

variable {call : Caller} {turns : Nat} {W₀ W : World} {i j : Image} {b : Nat} {frame : Frame}
  {env env' : Environment} {c c' : Counters} {late : CompileState} {params : List String}
  {finish : List Stmt → List Stmt} {rs : List Rebinding} {more : List Stmt}

/-- Whatever may stand where an environment is served may be put behind some statements. -/
def Precedes (finish : List Stmt → List Stmt) (frame : Frame) (env : Environment) (c : Counters)
    (late : CompileState) : Prop :=
  ∀ body kind, (∀ frame' : Frame, frame'.Serves env c late → Derivable frame' (.returns body kind)) →
    Derivable frame (.returns (finish body) kind)

/-- If the statements come to their end, some frame serves the environment: otherwise anything might
stand there, and it does not. -/
theorem Precedes.some_serves (precedes : Precedes finish frame env' c' late)
    (same : ∀ body, finish body = Rebinding.rebound rs (more ++ body)) (caller : CallerSound call)
    (extends_ : W₀.Extends W) (describes : W.Describes i) (own : Own W₀ W i frame b)
    (ran : execBlock call turns b (Rebinding.running rs more) i = .ok .normal j) :
    ∃ frame' : Frame, frame'.Serves env' c' late := by
  by_contra none_
  have anything := precedes [.ret (.bool true)] .datum fun frame' serves =>
    (none_ ⟨frame', serves⟩).elim
  rw [same] at anything
  obtain ⟨W', frame', midway⟩ :=
    Rebinding.arrives caller rfl extends_ describes own anything ran
  exact (midway.derivable.unfolds : Derivable _ _).unfolds

/-- Where the statements come to their end, the scope has what the environment behind them asks for. That
its script variables hold data is known by what may stand there: assignments to all of them. -/
theorem Precedes.arrives (precedes : Precedes finish frame env' c' late)
    (same : ∀ body, finish body = Rebinding.rebound rs (more ++ body)) (caller : CallerSound call)
    (serves : frame.ServesBut params env c late) (leads : c.Leads c')
    (older : ∀ name ∈ params, ∃ c₀, Made c₀ c' name)
    (adds : ∀ binding ∈ env', binding ∈ env ∨ binding.space = .vars)
    (extends_ : W₀.Extends W) (describes : W.Describes i) (own : Own W₀ W i frame b)
    (ran : execBlock call turns b (Rebinding.running rs more) i = .ok .normal j) :
    ∃ (W' : World) (frame' : Frame), W₀.Extends W' ∧ Leads W i W' j ∧ W'.Describes j ∧
      frame'.Serves env' c' late ∧ W'.Admits frame' b ∧
      ∀ acceptor manyValues, frame.Accepts acceptor manyValues → frame'.Accepts acceptor manyValues := by
  obtain ⟨model, modelled⟩ := precedes.some_serves same caller extends_ describes own ran
  have hosted : ∀ {served : Frame}, served.Serves env' c' late → ∀ name ∈ hostsOf env',
      served.Has name .datum := by
    intro served serves name member
    obtain ⟨binding, inside, reference⟩ := mem_hostsOf.mp member
    have asks := serves.bindings binding inside
    rwa [Asks, reference] at asks
  -- The frame in which the assignments stand at the end knows the variables.
  have assigns := precedes [.ret (assigning (hostsOf env'))] .datum fun served serves =>
    .ret (.assigning fun name member => (hosted serves name member).known)
  rw [same] at assigns
  obtain ⟨W', there, midway⟩ := Rebinding.arrives caller rfl extends_ describes own assigns ran
  have holds : ∀ name ∈ hostsOf env', there.kinds name = some .datum :=
    (midway.derivable.unfolds : Derivable _ _).of_assigning
  have stays : ∀ name kind, frame.kinds name = some kind → there.kinds name = some kind := by
    obtain ⟨wider, found, included⟩ := midway.leads.grows.scopes b frame.kinds own.layout
    rw [midway.own.layout] at found
    cases found
    exact included
  have kept : ∀ name kind, frame.Has name kind → (frame.bindAll (hostsOf env') .datum).Has name kind := by
    refine fun name kind has => ⟨has.unreserved, ?_⟩
    simp only [Frame.bindAll]
    split
    · rename_i member
      rw [← holds name member]
      exact stays name kind has.known
    · exact has.known
  have unmade : ∀ name, Made c' late.counters name → name ∉ ([] : List String) →
      (frame.bindAll (hostsOf env') .datum).kinds name = none := by
    intro name made _
    have absent : name ∉ hostsOf env' := fun member => by
      have known := (hosted modelled name member).known
      rw [modelled.unmade name made List.not_mem_nil] at known
      cases known
    refine (if_neg absent).trans (serves.unmade name (made.right leads) fun member => ?_)
    obtain ⟨c₀, before⟩ := older name member
    exact before.disjoint made
  have outer : (frame.bindAll (hostsOf env') .datum).Serves env c' late := serves.change kept unmade
  refine ⟨W', frame.bindAll (hostsOf env') .datum, midway.extends_, midway.leads, midway.describes,
    ⟨outer.unmade, fun binding member => ?_, outer.literals⟩,
    ⟨there.kinds, midway.own.layout, fun name kind known => ?_⟩,
    fun _ _ accepts => accepts.imp_right fun named => ⟨named.1, ?_⟩⟩
  · rcases adds binding member with inside | variable_
    · exact outer.bindings binding inside
    · rw [Asks]
      split
      · rename_i name reference
        have host := mem_hostsOf.mpr ⟨binding, member, reference⟩
        exact ⟨(hosted modelled name host).unreserved, if_pos host⟩
      · exact fun other => by rw [variable_] at other; cases other
      · exact fun other => by rw [variable_] at other; cases other
      · trivial
  · simp only [Frame.bindAll] at known
    split at known
    · rename_i inside
      exact (holds name inside).trans known
    · exact stays name kind known
  · have absent : "values" ∉ hostsOf env' := fun member =>
      (hosted modelled "values" member).unreserved (by decide)
    exact (if_neg absent).trans named.2

end Arriving

section Steps

variable {W : World} {s : CompileState} {context : Context} {bindings : List (SymbolId × Value)}
  {forms : List Value} {compile : FormCompiler} {inOrder : Bool}

theorem Built.bindVariables (forms : CompilesForms compile) (ok : CompilerOk W s)
    (env : EnvOk W s context.env) (specials : List SymbolId)
    (data : ∀ binding ∈ bindings, W.Datum binding.2) :
    Built W s (Compiler.bindVariables compile context inOrder specials bindings) fun W' s' head =>
      HeadOk W' s' head ∧
        Goes [] s s' { env := context.env } head (fun _ => True) fun _ => True := by
  cases inOrder with
  | true => exact Built.bindInits forms ok env specials data
  | false =>
      refine Built.bind (Built.defineInits forms ok env {} data) fun W₁ s₁ result step₁ ok₁ defined => ?_
      obtain ⟨prologue, hosts⟩ := result
      have env₁ : HeadOk W₁ s₁ { env := context.env, prologue } := env.further step₁
      refine Builds.since (Built.bindHosts ok₁ env₁ specials hosts)
        fun W₂ s₂ head step₂ bound => ⟨bound.1, ?_⟩
      exact defined.trans bound.2 step₂.progress fun _ _ _ _ has => has

theorem Built.bodyForms (ok : CompilerOk W s) (name : Option SymbolId) (data : W.Data forms) :
    Built W s (Compiler.bodyForms name forms) fun W' _ => W'.Data := by
  cases name with
  | none => exact Built.gives ok data
  | some name =>
      refine Built.bind (Built.newList ok data) fun W₁ s₁ list step₁ ok₁ datum => ?_
      refine Built.bind (Built.newListWithTail ok₁ (.ofName (by decide)
        (.one (W₁.datum_ofSymbol name))) datum) fun W₂ s₂ form step₂ ok₂ datum => ?_
      exact Built.gives ok₂ (.one datum)

theorem Built.nameFunction (ok : CompilerOk W s) (name : Option SymbolId) (parsed : Body)
    (hosts : List String) (block : List Stmt) :
    Built W s (Compiler.nameFunction name parsed hosts block) fun _ _ _ => True :=
  Built.bind (Built.nameOf ok name) fun _ _ _ _ ok₁ _ =>
    (Built.withProperties ok₁ hosts block _).mono fun _ _ _ _ => trivial

end Steps

end LispScript.Discipline

namespace LispScript

open Script Machine Compiler Discipline

/-- Code that was compiled in a context between two states can run in a scope and deliver its values
there, and values of the language are at hand. -/
def RunsWith (values : List Value) (context : Context) (s s' : CompileState) (image : Image)
    (b : Address) : Prop :=
  ∃ (W : World) (late : CompileState) (frame : Frame) (manyValues : Bool), Progress s' late ∧
    frame.Serves context.env s.counters late ∧ frame.Accepts context.acceptor manyValues ∧
    W.Describes image ∧ W.Admits frame b ∧ W.Data values

/-- A body is compiled in order: what is known of objects holds further on, and what its environment
refers to is there. -/
def Discipline.World.Oversees (W : World) (env : Environment) (u : CompileState) : Prop :=
  ∃ W' : World, W.Extends W' ∧ CompilerOk W' u ∧ EnvOk W' u env

namespace Compiler

section Bindings

variable {W : World} {s t u : CompileState} {context : Context} {depth : Nat} {inOrder : Bool}
  {specials : List SymbolId} {bindings : List (SymbolId × Value)} {hosts : List (SymbolId × String)}
  {body : Body} {code : Expr} {head head' : Head} {env' : Environment} {stmts : List Stmt}
  {compile : FormCompiler}

theorem bindHosts_goesTo (ok : bindHosts specials head hosts s = .ok head' t) :
    head.GoesTo (hosts.map Prod.fst) head' := by
  induction hosts generalizing s head with
  | nil =>
      cases ok
      exact ⟨.refl _, fun _ => id⟩
  | cons pair rest ih =>
      obtain ⟨var, host⟩ := pair
      obtain ⟨head₁, s₁, bound, ok⟩ := ok_of_bind ok
      exact (bindParameter_goesTo bound).trans (ih ok)

theorem bindInits_goesTo (ok : bindInits compile context specials head bindings s = .ok head' t) :
    head.GoesTo (bindings.map Prod.fst) head' := by
  induction bindings generalizing s head with
  | nil =>
      cases ok
      exact ⟨.refl _, fun _ => id⟩
  | cons binding rest ih =>
      obtain ⟨var, init⟩ := binding
      obtain ⟨host, s₁, -, ok⟩ := ok_of_bind ok
      obtain ⟨value, s₂, -, ok⟩ := ok_of_bind ok
      obtain ⟨head₁, s₃, bound, ok⟩ := ok_of_bind ok
      exact ((head.goesTo_add _).trans (bindParameter_goesTo bound)).trans (ih ok)

theorem Adds.inside {outer env : Environment} {vars : List SymbolId} (adds : Adds outer vars env)
    {binding : Binding} (member : binding ∈ env) : binding ∈ outer ∨ binding.space = .vars := by
  obtain ⟨added, rfl, -, spaces⟩ := adds
  exact (List.mem_append.mp member).symm.imp_right (spaces binding)

theorem bindVariables_adds
    (ok : Compiler.bindVariables compile context inOrder specials bindings s = .ok head t) :
    ∃ vars, Adds context.env vars head.env := by
  cases inOrder with
  | true => exact ⟨_, (bindInits_goesTo ok).adds⟩
  | false =>
      obtain ⟨⟨prologue, hosts⟩, s₁, -, bound⟩ := ok_of_bind ok
      exact ⟨_, (bindHosts_goesTo bound).adds⟩

/-- Where the code of a form with bindings has bound its variables, the body can run. -/
theorem CompilesBindings.arrives (ok : CompilerOk W s) (env : EnvOk W s context.env)
    (inits : ∀ binding ∈ bindings, W.Datum binding.2) (data : W.Data body.forms)
    (steps : CompilesBindings depth context inOrder bindings body s code head env' u stmts t) :
    W.Oversees env' u ∧
    ∃ rs more, (∀ block, head.prologue.finish block = Rebinding.rebound rs (more ++ block)) ∧
      ∀ values i b, RunsWith values context s t i b → ∀ steps turns j,
        execBlock (callWithin steps) turns i.heap.scopes.size (Rebinding.running rs more)
          (i.inside b) = .ok .normal j →
        RunsWith values (context.withEnv env') u t j i.heap.scopes.size := by
  have forms := CompilesForms.within depth
  obtain ⟨s₁, bound, applied, compiled, -⟩ := steps
  obtain ⟨_, rs, -, rebinds⟩ := Rebinds.bindVariables (Interning.refl s) bound
  obtain ⟨vars, adds⟩ := bindVariables_adds bound
  obtain ⟨W₁, step₁, ok₁, known₁, goes⟩ :=
    (Built.bindVariables forms ok env body.declarations.specials inits).ended bound
  obtain ⟨W₂, step₂, ok₂, stands⟩ := (Built.applyFreeDeclarations ok₁ known₁ _ _).ended applied
  have known₂ : EnvOk W₂ u (context.withEnv env').env := stands.ok
  obtain ⟨W₃, step₃, -, -⟩ := (Built.compileBody forms ok₂ known₂
    ((step₁.trans step₂).data data)).ended compiled
  refine ⟨⟨W₂, (step₁.trans step₂).extends_, ok₂, known₂⟩, rs, head.prologue.current,
    rebinds.finish, ?_⟩
  rintro values i b ⟨W', late, frame, manyValues, progress, serves, accepts, describes, admits, valued⟩
    steps turns j ran
  have progress₁ : Progress s₁ late := (step₂.trans step₃).progress.trans progress
  obtain ⟨around, finish, derives⟩ := goes
  have precedes : Precedes head.prologue.finish frame.inside head.env s₁.counters late := by
    intro block kind rest
    rw [finish, Prologue.finish_empty]
    exact derives late frame.inside block kind progress₁ serves.inside trivial
      fun frame' serves' _ _ => rest frame' serves'
  obtain ⟨W'', follows, -, describes', own⟩ := (Begins.inside W' frame).own describes admits
  obtain ⟨Wⱼ, there, extends_, -, describesⱼ, served, admitted, delivers⟩ :=
    precedes.arrives rebinds.finish (callWithin_sound steps) serves.inside step₁.progress.counters
      nofun (fun binding => adds.inside) follows.extends_ describes' own ran
  exact ⟨Wⱼ, late, there, manyValues, progress,
    (Frame.ServesBut.later served step₂.progress.counters).noMore stands.noMore,
    delivers _ _ accepts.inside, describesⱼ, admitted, valued.extended extends_⟩

end Bindings

section Functions

variable {W : World} {s s₁ t : CompileState} {context : Context} {depth : Nat} {lambdaList : Value}
  {body items forms : List Value} {name : Option SymbolId} {code : Expr} {list : LambdaList}
  {specials : List SymbolId} {head : Head} {hosts : List String}

theorem bindParameters_adds {compile : FormCompiler}
    (keyed : list.keys ≠ [] → list.hasKeys = true)
    (ok : bindParameters compile context specials list s = .ok (head, hosts) t) :
    ∃ vars, Adds context.env vars head.env := by
  rw [bindParameters_eq] at ok
  obtain ⟨⟨head₁, requiredHosts⟩, s₁, ok₁, ok⟩ := ok_of_bind ok
  obtain ⟨⟨head₂, optionalHosts⟩, s₂, ok₂, ok⟩ := ok_of_bind ok
  obtain ⟨head₃, s₃, ok₃, ok⟩ := ok_of_bind ok
  obtain ⟨head₄, s₄, ok₄, ok⟩ := ok_of_bind ok
  obtain ⟨head₅, s₅, ok₅, ok⟩ := ok_of_bind ok
  cases ok
  exact ⟨_, ((((bindRequired_goesTo ok₁).1.adds.trans (bindSupplied_goesTo ok₂).1.adds).trans
    (bindDefaults_made ok₃).1.adds).trans (bindRest?_goesTo ok₄).adds).trans
      (bindKeySection?_made keyed ok₅).1.adds⟩

/-- Where a call of a function has bound the parameters, the body can run. -/
theorem compileLambda_arrives (ok : CompilerOk W s) (env : EnvOk W s context.env)
    (datum : W.Datum lambdaList) (data : W.Data body)
    (compiled : compileLambda (compileWithin depth) context lambdaList body name s = .ok code t) :
    ∃ list s₁ parsed s₂ head hosts env' u stmts rs more, parseLambdaList lambdaList s = .ok list s₁ ∧
      parseBody body true s₁ = .ok parsed s₂ ∧
      CompilesFunction depth context list parsed name s₂ code head hosts env' u stmts ∧
      W.Oversees env' u ∧
      (∀ block, head.prologue.finish block = Rebinding.rebound rs (more ++ block)) ∧
      ∀ values i scope, RunsWith values context s t i scope → ∀ manyValues args, args ⊆ values →
        args.length + 1 < ampleArguments → ∀ steps turns j,
          execBlock (callWithin steps) turns i.heap.scopes.size (Rebinding.running rs more)
            (activationImage i scope ("values" :: hosts) (acceptorValue manyValues :: args)) =
              .ok .normal j →
          RunsWith values { env := env', manyValues := true } u t j i.heap.scopes.size := by
  have within := CompilesForms.within depth
  obtain ⟨list, s₁, parsed, s₂, read, bodyRead, s₃, forms, s₄, head, hosts, s₅, env', u, stmts, s₆,
    holder, properties, checked, formed, bound, applied, bodyCompiled, unreserved, same, -, named⟩ :=
    compileLambda_steps compiled
  have keyed := parseLambdaList_keyed lambdaList s list s₁ read
  obtain ⟨_, ⟨-, _, rs, rebinds⟩, -⟩ :=
    bindParameters_hasBound (compileWithin_obeys depth) keyed bound
  obtain ⟨vars, adds⟩ := bindParameters_adds keyed bound
  obtain ⟨W₁, step₁, ok₁, defaults⟩ := (Built.parseLambdaList ok datum).ended read
  obtain ⟨W₂, step₂, ok₂, dataForms⟩ := (Built.parseBody ok₁ (step₁.data data) true).ended bodyRead
  obtain ⟨W₃, step₃, ok₃, env₃⟩ := (Built.forM (fun W s => EnvOk W s context.env) ok₂
    (env.further (step₁.trans step₂)) fun id _ W s ok env => Builds.since
      (Built.checkBindable ok env id) fun _ _ _ further _ => env.further further).ended checked
  obtain ⟨W₄, step₄, ok₄, dataItems⟩ :=
    (Built.bodyForms ok₃ name (step₃.data dataForms)).ended formed
  obtain ⟨W₅, step₅, ok₅, entered⟩ := (Built.bindParameters ok₄ within (env₃.further step₄)
    (defaults.further ((step₂.trans step₃).trans step₄))).ended bound
  obtain ⟨W₆, step₆, ok₆, stands⟩ := (Built.applyFreeDeclarations ok₅ entered.ok _ _).ended applied
  have known₆ : EnvOk W₆ u { env := env', manyValues := true : Context }.env := stands.ok
  obtain ⟨W₇, step₇, ok₇, -⟩ := (Built.compileBody within ok₆ known₆
    ((step₅.trans step₆).data dataItems)).ended bodyCompiled
  obtain ⟨W₈, step₈, -, -⟩ := (Built.nameFunction ok₇ name parsed hosts _).ended named
  have before := ((step₁.trans step₂).trans step₃).trans step₄
  have after := (step₆.trans step₇).trans step₈
  refine ⟨list, s₁, parsed, s₂, head, hosts, env', u, stmts, rs, head.prologue.current, read, bodyRead,
    ⟨s₃, s₄, s₅, s₆, forms, holder, properties, checked, formed, bound, applied, bodyCompiled,
      unreserved, same⟩, ⟨W₆, ((before.trans step₅).trans step₆).extends_, ok₆, known₆⟩,
    rebinds.finish, ?_⟩
  rintro values i scope ⟨W', late, frame, -, progress, serves, -, describes, admits, valued⟩ manyValues
    args inside few steps turns j ran
  have serves₄ := serves.later before.progress.counters
  have progress₅ : Progress s₅ late := after.progress.trans progress
  have canEnter := entered.hosts.canEnter serves₄ progress₅.counters
  have precedes : Precedes head.prologue.finish (frame.enter manyValues (args.length + 1) hosts)
      head.env s₅.counters late := fun block kind rest =>
    entered.enters late frame manyValues (args.length + 1) block kind progress₅ serves₄
      (Nat.le_add_left 1 _) fun frame' serves' _ => rest frame' serves'
  have argued : W'.Data args := fun value member => valued value (inside member)
  obtain ⟨W'', follows, -, describes', own⟩ :=
    (Begins.enter canEnter manyValues argued few).own describes admits
  obtain ⟨Wⱼ, there, extends_, -, describesⱼ, served, admitted, delivers⟩ :=
    precedes.arrives rebinds.finish (callWithin_sound steps)
      (Frame.Serves.enter serves₄ entered.hosts progress₅.counters manyValues (args.length + 1))
      step₅.progress.counters (fun host member => ⟨_, entered.hosts.made host member⟩)
      (fun binding => adds.inside) follows.extends_ describes' own ran
  exact ⟨Wⱼ, late, there, manyValues, progress,
    (Frame.ServesBut.later served step₆.progress.counters).noMore stands.noMore,
    delivers _ _ (.inr ⟨rfl, canEnter.values manyValues⟩), describesⱼ, admitted, valued.extended extends_⟩

end Functions

end Compiler

end LispScript
