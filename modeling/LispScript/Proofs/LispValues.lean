import LispScript.Proofs.Arrival
import LispScript.Proofs.QuotedData

/-!
What only scripts know stays with them: truth values, `undefined`, bundles and signals are not to be seen
in the language. The values that an owner or a program can get at are none of these, nor are those that
forms give, nor what a variable has wherever a body runs that can see it.
-/

namespace LispScript

open Script Machine Discipline Compiler

section Values

/-- The values that there are in the language: nothing that only scripts know, and no symbol in place
of the empty list. -/
def Value.IsLisp : Value → Prop
  | .bool _ | .undefined | .bundle _ | .transfer _ => False
  | .symbol id => id ≠ SymbolId.nil
  | _ => True

/-- What can be got at in an image, by code of the language or by one who holds some values. -/
inductive Image.Shows (image : Image) (held : List Value) : Value → Prop where
  | held (member : value ∈ held) : Shows image held value
  | value (id : SymbolId) (slot : (image.symbols.symbol id).value = some value) :
      Shows image held value
  | function (id : SymbolId) (slot : (image.symbols.symbol id).function = some value) :
      Shows image held value
  | plist (id : SymbolId) : Shows image held (image.symbols.symbol id).plist
  | car (address : Address) : Shows image held (image.heap.cell address).car
  | cdr (address : Address) : Shows image held (image.heap.cell address).cdr
  | element (vector : Shows image held (.vector address))
      (member : value ∈ image.heap.vector address) : Shows image held value
  | property (function : Shows image held (.function address))
      (known : (name, value) ∈ (image.heap.function address).properties) : Shows image held value

variable {W : World} {held : List Value} {session later : Session} {image : Image} {value : Value}

theorem Discipline.World.Datum.isLisp (datum : W.Datum value) : value.IsLisp := by
  cases value <;> trivial

theorem Image.Shows.datum (shows_ : image.Shows held value) (describes : W.Describes image)
    (data : W.Data held) :
    W.Datum value := by
  induction shows_ with
  | held member => exact data _ member
  | value id slot => exact (describes.symbol_ok id).value _ slot
  | function id slot => exact (describes.symbol_ok id).function _ slot
  | plist id => exact (describes.symbol_ok id).plist
  | car address => exact (describes.cell_datum address).1
  | cdr address => exact (describes.cell_datum address).2
  | element vector member ih => exact describes.vector_fits ih _ member
  | property function known ih => exact describes.functions.properties _ ih.1 _ known

/-- Where a run is at its end, whichever it is. -/
theorem Discipline.Safe.ended {run : Run α} {good : World → α → Prop} (safe : Safe W image run good) :
    ∃ W' : World, W.Extends W' ∧ Leads W image W' (imageOf (run image)) ∧
      W'.Describes (imageOf (run image)) ∧ ∀ a ended, run image = .ok a ended → good W' a := by
  rw [Safe] at safe
  cases ran : run image with
  | ok a ended =>
      rw [ran] at safe
      cases safe with
      | ok W' extends_ leads describes _ held =>
          exact ⟨W', extends_, leads, describes, fun _ _ same => by
            cases same
            exact held⟩
  | error interrupt ended =>
      rw [ran] at safe
      cases safe with
      | thrown W' extends_ leads describes _ _ _ | failed W' extends_ leads describes _
      | outOfSteps W' extends_ leads describes => exact ⟨W', extends_, leads, describes, fun _ _ same => by cases same⟩

/-- The variables of an environment have values of the language in a scope. -/
def Compiler.Environment.IsLispIn (env : Environment) (image : Image) (b : Address) : Prop :=
  ∀ binding ∈ env, ∀ name, binding.reference = .host name →
    ∃ value, image.heap.lookupVariable? b name = some value ∧ value.IsLisp

/-- A block that binds variables goes on with the statements of a body, under the cleanups of the dynamic
bindings. The body can run there, and all variables that it sees have values of the language. -/
structure BeginsBody (values : List Value) (context : Context) (u t : CompileState)
    (steps turns : Nat) (b : Address) (block : List Stmt) (rs : List Rebinding) (stmts : List Stmt)
    (start image : Image) : Prop where
  onward : execBlock (callWithin steps) turns b block start =
    Rebinding.cleaning (callWithin steps) turns b rs (execBlock (callWithin steps) turns b stmts) image
  runs : RunsWith values context u t image b
  lisp : context.env.IsLispIn image b

section Running

variable {context : Context} {s s' t u last : CompileState} {form function : Value}
  {depth steps turns : Nat} {code expr : Expr} {b : Address} {args values : List Value} {j : Image}
  {manyValues : Bool}

/-- The scope has what the names ask for, whichever values are at hand. -/
theorem RunsWith.runsIn (runs : RunsWith values context s s' image b) : RunsIn context s s' image b := by
  obtain ⟨W, late, frame, manyValues, progress, serves, -, describes, admits, -⟩ := runs
  exact ⟨W, late, frame, progress, serves, describes, admits⟩

/-- And its acceptor takes the values of the code. -/
theorem RunsWith.deliversIn (runs : RunsWith values context s s' image b) :
    DeliversIn context s s' image b := by
  obtain ⟨W, late, frame, manyValues, progress, serves, accepts, describes, admits, -⟩ := runs
  exact ⟨W, late, frame, manyValues, progress, serves, accepts, describes, admits⟩

/-- A variable of the language has a value of the language wherever code can run that sees it. -/
theorem RunsWith.isLispIn (runs : RunsWith values context s s' image b) :
    context.env.IsLispIn image b := by
  obtain ⟨W, late, frame, -, progress, serves, -, describes, admits, -⟩ := runs
  intro binding member name reference
  have asks := serves.bindings binding member
  rw [Asks, reference] at asks
  obtain ⟨value, found, datum, -⟩ := describes.lookup admits asks.known
  exact ⟨value, found, World.Datum.isLisp datum⟩

theorem RunsWith.values_isLisp (runs : RunsWith values context s s' image b) :
    ∀ value ∈ values, value.IsLisp := by
  obtain ⟨W, late, frame, -, -, -, -, -, -, valued⟩ := runs
  exact fun value member => (valued value member).isLisp

/-- Code that was compiled on the way can run there too. -/
theorem RunsWith.within (runs : RunsWith values context s s' image b) (before : Progress s t)
    (after : Progress u s') : RunsWith values context t u image b := by
  obtain ⟨W, late, frame, manyValues, progress, serves, rest⟩ := runs
  exact ⟨W, late, frame, manyValues, after.trans progress, serves.later before.counters, rest⟩

/-- And in a function scope of its own, which sees all that is around. -/
theorem RunsWith.inside (runs : RunsWith values context s s' image b) :
    RunsWith values context s s' (image.inside b) image.heap.scopes.size := by
  obtain ⟨W, late, frame, manyValues, progress, serves, accepts, describes, admits, valued⟩ := runs
  obtain ⟨W', follows, -, describes', own⟩ := (Begins.inside W frame).own describes admits
  exact ⟨W', late, frame.inside, manyValues, progress, serves.inside, accepts.inside, describes',
    own.admits, valued.extended follows.extends_⟩

/-- A form whose first value alone is wanted gives a value of the language wherever it runs, and however
it ends, other code can run there. -/
theorem RunsWith.evaluated (runs : RunsWith values context s s' image b) (ok : CompilerOk W s)
    (env : EnvOk W s context.env) (datum : W.Datum form)
    (compiled : compileSingle (compileWithin depth) context form s = .ok code s') :
    let result := evalExpr (callWithin steps) turns b code image
    RunsWith values context s s' (imageOf result) b ∧
      ∀ value ended, result = .ok value ended →
        value.IsLisp ∧ RunsWith (value :: values) context s s' ended b := by
  obtain ⟨W', late, frame, manyValues, progress, serves, accepts, describes, admits, valued⟩ := runs
  have built := Built.compileSingle (CompilesForms.within depth) ok env datum
  obtain ⟨-, -, -, codes⟩ := built.ended compiled
  have safe : Safe W' image (evalExpr (callWithin steps) turns b code) fun W'' => W''.Datum :=
    (codes late frame progress serves).sound (callWithin_sound steps) W' image b describes admits
  obtain ⟨W'', extends_, leads, described, gives⟩ := safe.ended
  refine ⟨⟨W'', late, frame, manyValues, progress, serves, accepts, described, leads.admits admits,
    valued.extended extends_⟩, fun value ended same => ?_⟩
  have datum := gives value ended same
  rw [same] at leads described
  exact ⟨datum.isLisp, W'', late, frame, manyValues, progress, serves, accepts, described,
    leads.admits admits, World.data_cons.mpr ⟨datum, valued.extended extends_⟩⟩

/-- However a call of a function at hand ends, code can run where it could before; the function may be
called within any code. -/
theorem RunsWith.called (runs : RunsWith values context s s' image b) (isFunction : function ∈ values)
    (inside : args ⊆ values) :
    RunsWith values context s s'
      (imageOf (callWithin steps function (acceptorValue manyValues :: args) image)) b := by
  obtain ⟨W, late, frame, manyValues', progress, serves, accepts, describes, admits, valued⟩ := runs
  obtain ⟨W', extends_, leads, described, -⟩ := ((callWithin_sound steps).language W image manyValues
    function args describes (valued _ isFunction) fun value member => valued value (inside member)).ended
  exact ⟨W', late, frame, manyValues', progress, serves, accepts, described, leads.admits admits,
    valued.extended extends_⟩

/-- Where the code of a form with bindings has bound its variables, the body begins. -/
theorem compileBindings_begins {inOrder : Bool} (ok : CompilerOk W s) (env : EnvOk W s context.env)
    (data : W.Data args)
    (compiled : compileBindings (compileWithin depth) context inOrder form args s = .ok code t) :
    ∃ bindings s₁ body s₂ head env' u stmts rs more,
      parseBindings form context (args.headD .nil) s = .ok bindings s₁ ∧
      parseBody args.tail false s₁ = .ok body s₂ ∧
      CompilesBindings depth context inOrder bindings body s₂ code head env' u stmts t ∧
      W.Oversees env' u ∧
      (∀ block, head.prologue.finish block = Rebinding.rebound rs (more ++ block)) ∧
      ∀ values i b, RunsWith values context s t i b → ∀ steps turns j,
        execBlock (callWithin steps) turns i.heap.scopes.size (Rebinding.running rs more)
          (i.inside b) = .ok .normal j →
        BeginsBody values (context.withEnv env') u t steps turns i.heap.scopes.size
          (head.prologue.finish stmts) rs stmts (i.inside b) j := by
  obtain ⟨bindings, s₁, body, s₂, head, env', u, stmts, read, bodyRead, compiles⟩ :=
    compileBindings_steps compiled
  obtain ⟨W₁, step₁, ok₁, inits⟩ := (Built.parseBindings ok env data.headD).ended read
  obtain ⟨W₂, step₂, ok₂, dataForms⟩ :=
    (Built.parseBody ok₁ (step₁.data data.tail) false).ended bodyRead
  have before := step₁.trans step₂
  obtain ⟨⟨W₃, extends_, inOrder⟩, rs, more, same, arrives⟩ := compiles.arrives ok₂ (env.further before)
    (fun binding member => step₂.datum (inits binding member)) dataForms
  refine ⟨bindings, s₁, body, s₂, head, env', u, stmts, rs, more, read, bodyRead, compiles,
    ⟨W₃, before.extends_.trans extends_, inOrder⟩, same, fun values i b runs steps turns j ran => ?_⟩
  have there := arrives values i b (runs.within before.progress (Progress.refl t)) steps turns j ran
  exact ⟨by rw [same, Rebinding.execBlock_rebound ran], there, there.isLispIn⟩

/-- Where a call of a function has bound the parameters, the body begins. -/
theorem compileLambda_begins {lambdaList : Value} {body : List Value} {name : Option SymbolId}
    (ok : CompilerOk W s) (env : EnvOk W s context.env) (datum : W.Datum lambdaList)
    (data : W.Data body)
    (compiled : compileLambda (compileWithin depth) context lambdaList body name s = .ok code t) :
    ∃ list s₁ parsed s₂ head hosts env' u stmts rs more, parseLambdaList lambdaList s = .ok list s₁ ∧
      parseBody body true s₁ = .ok parsed s₂ ∧
      CompilesFunction depth context list parsed name s₂ code head hosts env' u stmts ∧
      W.Oversees env' u ∧
      (∀ block, head.prologue.finish block = Rebinding.rebound rs (more ++ block)) ∧
      ∀ values i scope, RunsWith values context s t i scope → ∀ manyValues args, args ⊆ values →
        args.length + 1 < ampleArguments → ∀ steps turns j,
          let start := activationImage i scope ("values" :: hosts) (acceptorValue manyValues :: args)
          execBlock (callWithin steps) turns i.heap.scopes.size (Rebinding.running rs more) start =
              .ok .normal j →
          BeginsBody values { env := env', manyValues := true } u t steps turns i.heap.scopes.size
            (head.prologue.finish stmts) rs stmts start j := by
  obtain ⟨list, s₁, parsed, s₂, head, hosts, env', u, stmts, rs, more, read, bodyRead, compiles, inOrder,
    same, arrives⟩ := compileLambda_arrives ok env datum data compiled
  refine ⟨list, s₁, parsed, s₂, head, hosts, env', u, stmts, rs, more, read, bodyRead, compiles,
    inOrder, same, ?_⟩
  intro values i scope runs manyValues args inside few steps turns j start ran
  have there := arrives values i scope runs manyValues args inside few steps turns j ran
  exact ⟨by rw [same, Rebinding.execBlock_rebound ran], there, there.isLispIn⟩

theorem Discipline.CompilerOk.startUnit (ok : CompilerOk W s) : CompilerOk W (startUnit s) where
  describes := ok.describes
  someScope := ok.someScope
  bounded := ⟨ok.bounded.vars, ok.bounded.literals, ok.bounded.blocks, ok.bounded.tagbodies⟩
  globals key binding found := by
    obtain ⟨known, isGlobal⟩ := ok.globals key binding found
    exact ⟨⟨known.known, known.reference⟩, isGlobal⟩
  literals := ok.freshUnit.literals

/-- Where the head of a unit has made the literals, the code of the unit's form can run. -/
theorem unit_arrives (ok : CompilerOk W s) (datum : W.Datum form)
    (compiled : compileWithin depth .toplevel form (startUnit s) = .ok expr last) {W' : World}
    (describes : W'.Describes image) (someScope : W'.scopes ≠ []) (valued : W'.Data values)
    (ran : execBlock (callWithin steps) turns image.heap.scopes.size
      last.literals.initializers.toList (unitImage image) = .ok .normal j) :
    RunsWith values .toplevel (startUnit s) last j image.heap.scopes.size := by
  have built := CompilesForms.within depth W _ .toplevel form ok.startUnit (envOk_toplevel _) datum
  obtain ⟨_, -, lastOk, -⟩ := built.ended compiled
  obtain ⟨entries, literals⟩ := lastOk.literals
  have packer : W'.Has (.acceptor true) (.function (Image.nativeAddress (.routine .packValues))) := rfl
  have begins : Begins W' Frame.global (Frame.global.inside.bind "values" (.acceptor true)) ["values"]
      [.function (Image.nativeAddress (.routine .packValues))] .other :=
    .inPlace _ (by decide) id (fun _ => ⟨true, rfl⟩) packer
  obtain ⟨W₁, follows, -, described, own⟩ := begins.own describes (W'.admits_global someScope)
  have fresh : ∀ n, (Frame.global.inside.bind "values" (.acceptor true)).kinds (literalName n) =
      none := by
    intro n
    rw [Frame.bind_of_ne _ (literalName_ne_values n)]
    simp [Frame.inside, Frame.global]
  rw [literals.initializers] at ran
  obtain ⟨-, W₂, extends_, -, describesⱼ, ownⱼ⟩ :=
    literals.written.advances (callWithin_sound steps) fresh W' W₁ _ _ j follows.extends_ described own
      ran
  exact ⟨W₂, last, Frame.unit entries, true, Progress.refl last, Frame.unit_serves literals,
    .inr ⟨rfl, Frame.unit_values entries⟩, describesⱼ, ownⱼ.admits, valued.extended extends_⟩

/-- Within a unit, as long as its literals are in reach, code that can run gets the symbols that it names:
it can bind them dynamically. -/
theorem UnitRuns.canRun {program : Program} {entries : List Hoisted} {made : LiteralKey → Value}
    {i k : Image} (runs : UnitRuns turns program entries expr i made j) (standing : Standing .toplevel s)
    (unit : IsUnit program last entries expr) (started : Later (startUnit s) t) (goesOn : Later t last)
    (within : WithinUnit i.heap.scopes.size j k) (sees : Sees k.heap b i.heap.scopes.size)
    (here : RunsWith values context s' t k b) : ∃ W, CanRun W context s' t k b := by
  obtain ⟨W, late, frame, manyValues, progress, serves, accepts, describes, admits, -⟩ := here
  refine ⟨W, ⟨late, frame, manyValues, progress, serves, accepts, admits⟩, describes,
    within.steady.ordered, fun id name named => ?_⟩
  obtain ⟨-, sofar, before⟩ := (started KeepsLiterals).tabled [] (tabled_startUnit standing)
  obtain ⟨-, others, after⟩ := (goesOn KeepsLiterals).tabled _ before
  obtain ⟨hoisted, member, key, rfl⟩ := (before.names _ _).mp named
  obtain ⟨entry, inside, same, named⟩ := (unit.tabled.names _ _).mp
    (after.found (List.mem_append_left others member))
  rw [← named]
  refine within.unshadowed.lookup within.steady.ordered sees
    (describes.scopeCount ▸ admits.lt) ?_
  rw [within.steady.kept _ _ (.inr ⟨rfl, .inr ⟨_, rfl⟩⟩)]
  refine (runs.head.held entry inside).trans ?_
  rw [same, key, runs.head.symbol]

theorem Session.compile_ok {program : Program}
    (compiled : Session.compile form session = .ok program later) :
    ∃ expr last, Compiler.compile .toplevel form (startUnit session.state) = .ok expr last ∧
      program = unitProgram last.literals expr := by
  rw [Session.compile, Session.compiling] at compiled
  cases ended : Compiler.compileUnit form session.state with
  | ok made state =>
      rw [ended] at compiled
      cases compiled
      exact compileToplevel_ok ended
  | error e state =>
      rw [ended] at compiled
      cases compiled

end Running

/-- What only scripts know stays with them. Whatever a session went through, the values that its owner
is given and those that can be got at from them, from symbols and from conses are values of the
language, and so they are in the image that any run of a program leaves. Where the head of the program
has made the literals, the code of its form can run. Wherever code can run, the variables that it sees
have values of the language; however a form or a call ends, code can run there again, and a form of which
one value is wanted gives a value of the language. Where a form with bindings or a call of a function has
bound the variables, the body can run. -/
theorem only_lisp_values :
    (∀ held session, History held session →
      (∃ W : World, CompilerOk W (startUnit session.state) ∧ W.Data held) ∧
      (∀ value, session.image.Shows held value → value.IsLisp) ∧
      ∀ form program later, (form ∈ held ∨ form.IsAtom) →
        Session.compile form session = .ok program later →
        ∃ expr last, compile .toplevel form (startUnit session.state) = .ok expr last ∧
          program = unitProgram last.literals expr ∧
          ∀ others other, History others other → ∀ steps,
            let result := runWithin steps program other.image
            let inner := other.image.heap.scopes.size
            (∀ value, (imageOf result).Shows others value → value.IsLisp) ∧
            (∀ given ended, result = .ok given ended →
              ∀ value ∈ ended.valuesOf given, value.IsLisp) ∧
            ∀ j, execBlock (callWithin steps) steps inner last.literals.initializers.toList
                (unitImage other.image) = .ok .normal j →
              result = evalExpr (callWithin steps) steps inner expr j ∧
              RunsWith others .toplevel (startUnit session.state) last j inner) ∧
    ∀ {W : World} {context : Context} {s : CompileState}, CompilerOk W s → EnvOk W s context.env →
      (∀ t values i b, RunsWith values context s t i b →
        RunsIn context s t i b ∧ DeliversIn context s t i b ∧ context.env.IsLispIn i b ∧
        (∀ value ∈ values, value.IsLisp) ∧
        RunsWith values context s t (i.inside b) i.heap.scopes.size ∧
        (∀ s' t', Progress s s' → Progress t' t → RunsWith values context s' t' i b) ∧
        (∀ function ∈ values, ∀ args, args ⊆ values → ∀ manyValues steps, RunsWith values context s t
          (imageOf (callWithin steps function (acceptorValue manyValues :: args) i)) b) ∧
        ∀ form depth code, W.Datum form →
          compileSingle (compileWithin depth) context form s = .ok code t → ∀ steps turns,
            let result := evalExpr (callWithin steps) turns b code i
            RunsWith values context s t (imageOf result) b ∧
              ∀ value ended, result = .ok value ended →
                value.IsLisp ∧ RunsWith (value :: values) context s t ended b) ∧
      (∀ (inOrder : Bool) form args depth code t,
        IsForm s.image.heap (if inOrder then .bindInOrder else .bind) args form →
        compileWithin (depth + 1) context form s = .ok code t →
        ∃ bindings s₁ body s₂ head env' u stmts rs more,
          parseBindings form context (args.headD .nil) s = .ok bindings s₁ ∧
          parseBody args.tail false s₁ = .ok body s₂ ∧
          CompilesBindings depth context inOrder bindings body s₂ code head env' u stmts t ∧
          W.Oversees env' u ∧
          (∀ block, head.prologue.finish block = Rebinding.rebound rs (more ++ block)) ∧
          ∀ values i b, RunsWith values context s t i b → ∀ steps turns j,
            execBlock (callWithin steps) turns i.heap.scopes.size (Rebinding.running rs more)
              (i.inside b) = .ok .normal j →
            BeginsBody values (context.withEnv env') u t steps turns i.heap.scopes.size
              (head.prologue.finish stmts) rs stmts (i.inside b) j) ∧
      ∀ lambdaList body name depth code t, W.Datum lambdaList → W.Data body →
        compileLambda (compileWithin depth) context lambdaList body name s = .ok code t →
        ∃ list s₁ parsed s₂ head hosts env' u stmts rs more,
          parseLambdaList lambdaList s = .ok list s₁ ∧ parseBody body true s₁ = .ok parsed s₂ ∧
          CompilesFunction depth context list parsed name s₂ code head hosts env' u stmts ∧
          W.Oversees env' u ∧
          (∀ block, head.prologue.finish block = Rebinding.rebound rs (more ++ block)) ∧
          ∀ values i scope, RunsWith values context s t i scope → ∀ manyValues args, args ⊆ values →
            args.length + 1 < ampleArguments → ∀ steps turns j,
              let start :=
                activationImage i scope ("values" :: hosts) (acceptorValue manyValues :: args)
              execBlock (callWithin steps) turns i.heap.scopes.size (Rebinding.running rs more) start =
                  .ok .normal j →
              BeginsBody values { env := env', manyValues := true } u t steps turns
                i.heap.scopes.size (head.prologue.finish stmts) rs stmts start j := by
  refine ⟨fun held session history => ?_, fun {W context s} ok env => ⟨?_, ?_, ?_⟩⟩
  · obtain ⟨W, ok, data⟩ := history.inOrder
    refine ⟨⟨W, ok.startUnit, data⟩, fun value shows_ => (shows_.datum ok.describes data).isLisp,
      fun form program later owned compiled => ?_⟩
    obtain ⟨expr, last, made, same⟩ := Session.compile_ok compiled
    have datum : W.Datum form := owned.elim (data form) Value.IsAtom.datum
    refine ⟨expr, last, made, same, fun others other history' steps => ?_⟩
    obtain ⟨W', ok', others_data⟩ := history'.inOrder
    obtain ⟨W'', extends_, -, describes, gives⟩ :=
      (ok'.runs (compiled_closed ok data owned compiled) steps).ended
    refine ⟨fun value shows_ => (shows_.datum describes (others_data.extended extends_)).isLisp,
      fun given ended ran value member => ?_, fun j ran => ⟨?_, ?_⟩⟩
    · have many := gives given ended ran
      rw [ran] at describes
      exact (describes.valuesOf_datum many value member).isLisp
    · rw [same]
      exact runWithin_unit ran
    · exact unit_arrives ok datum made ok'.describes ok'.someScope others_data ran
  · intro t values i b runs
    exact ⟨runs.runsIn, runs.deliversIn, runs.isLispIn, runs.values_isLisp, runs.inside, fun s' t' => runs.within,
      fun function isFunction args inside manyValues steps => runs.called isFunction inside,
      fun form depth code datum compiled steps turns => runs.evaluated ok env datum compiled⟩
  · intro inOrder form args depth code t isForm compiled
    have data : W.Data args := isForm.data ok.describes
    rw [compileWithin_special isForm] at compiled
    have compiled : compileBindings (compileWithin depth) context inOrder form args s = .ok code t := by
      cases inOrder <;> exact compiled
    exact compileBindings_begins ok env data compiled
  · intro lambdaList body name depth code t datum data compiled
    exact compileLambda_begins ok env datum data compiled

section Example

variable {W : World} {s t : CompileState} {depth : Nat} {form : Value} {args : List Value}
  {name : String}

/-- Code without literals that gives one value and refers to no variables can run in the scope around all
programs. -/
theorem runsWith_global (ok : CompilerOk W s) (none_ : t.literals.initializers = #[]) :
    RunsWith [] (Context.single {}) s t s.image Image.globalScope := by
  have serves : Frame.global.Serves [] s.counters t := by
    refine ⟨fun _ _ _ => rfl, List.forall_mem_nil _, fun host value member => ?_⟩
    rw [none_] at member
    cases member
  exact ⟨W, t, Frame.global, false, .refl t, serves, .inl rfl, ok.describes,
    W.admits_global ok.someScope, World.data_nil⟩

/-- `(LET ((LIST T)) LIST)`. -/
def lexicalBinding : List Cell :=
  [⟨.symbol SpecialForm.bind.symbol, .cons 1⟩, ⟨.cons 2, .cons 4⟩, ⟨.cons 3, .nil⟩,
    ⟨.symbol SymbolId.list, .cons 5⟩, ⟨.symbol SymbolId.list, .nil⟩, ⟨.symbol SymbolId.t, .nil⟩]

/-- A form with bindings needs no literals, and its one variable is `T` in a script variable. -/
def bindsT (depth : Nat) (form : Value) (args : List Value) (name : String) (s : CompileState) : Bool :=
  (match compileWithin (depth + 1) (Context.single {}) form s with
    | .ok _ t => t.literals.initializers.isEmpty
    | _ => false) &&
  match parseBindings form (Context.single {}) (args.headD .nil) s with
  | .ok bindings s₁ => match parseBody args.tail false s₁ with
    | .ok body s₂ =>
        match bindVariables (compileWithin depth) (Context.single {}) false
            body.declarations.specials bindings s₂ with
        | .ok head s₃ =>
            (match head.prologue.finish [] with
              | [.define host (.support .t)] => host == name
              | _ => false) &&
            match applyFreeDeclarations head.env body.declarations (bindings.map Prod.fst) s₃ with
            | .ok env _ => env.any fun binding => match binding.reference with
                | .host host => host == name
                | _ => false
            | _ => false
        | _ => false
    | _ => false
  | _ => false

theorem bindsT_parts (binds : bindsT depth form args name s = true) :
    (∃ code t, compileWithin (depth + 1) (Context.single {}) form s = .ok code t ∧
      t.literals.initializers = #[]) ∧
    ∃ bindings s₁ body s₂ head s₃ env u,
      parseBindings form (Context.single {}) (args.headD .nil) s = .ok bindings s₁ ∧
      parseBody args.tail false s₁ = .ok body s₂ ∧
      bindVariables (compileWithin depth) (Context.single {}) false body.declarations.specials bindings s₂ =
        .ok head s₃ ∧
      head.prologue.finish [] = [.define name (.support .t)] ∧
      applyFreeDeclarations head.env body.declarations (bindings.map Prod.fst) s₃ = .ok env u ∧
      ∃ binding ∈ env, binding.reference = .host name := by
  obtain ⟨compiles, reads⟩ := Bool.and_eq_true_iff.mp binds
  constructor
  · split at compiles
    · rename_i code t ok
      exact ⟨code, t, ok, Array.isEmpty_iff.mp compiles⟩
    · cases compiles
  · split at reads
    on_goal 2 => cases reads
    rename_i bindings s₁ read
    split at reads
    on_goal 2 => cases reads
    rename_i body s₂ bodyRead
    split at reads
    on_goal 2 => cases reads
    rename_i head s₃ bound
    obtain ⟨defines, reads⟩ := Bool.and_eq_true_iff.mp reads
    split at defines
    on_goal 2 => cases defines
    rename_i host finishes
    split at reads
    on_goal 2 => cases reads
    rename_i env u applied
    obtain ⟨binding, member, same⟩ := List.any_eq_true.mp reads
    split at same
    on_goal 2 => cases same
    rename_i other reference
    rw [eq_of_beq defines] at finishes
    rw [eq_of_beq same] at reference
    exact ⟨bindings, s₁, body, s₂, head, s₃, env, u, read, bodyRead, bound, finishes, applied, binding,
      member, reference⟩

/-- In a new session without prelude the code of the empty list can run and gives values of the language,
and so does the code that wants its first value alone. The variable of `(LET ((LIST T)) LIST)` has such
a value where the body runs. -/
theorem only_lisp_values_of_nil :
    (∃ session program later expr last j result ended,
      Session.create { prelude := false } = .ok session ∧
      Session.compile .nil session = .ok program later ∧ program = unitProgram last.literals expr ∧
      RunsWith [] .toplevel (startUnit session.state) last j session.image.heap.scopes.size ∧
      runWithin 1 program session.image = .ok result ended ∧
      ∀ value ∈ ended.valuesOf result, value.IsLisp) ∧
    (∃ s code value ended, compileSingle (compileWithin 1) (Context.single {}) .nil s = .ok code s ∧
      evalExpr (callWithin 1) 1 Image.globalScope code s.image = .ok value ended ∧ value.IsLisp) ∧
    ∃ code t env u i b value,
      compileWithin 5 (Context.single {}) (.cons 0) (CompileState.reading lexicalBinding) = .ok code t ∧
      RunsWith [] ((Context.single {}).withEnv env) u t i b ∧
      i.heap.lookupVariable? b "list_1" = some value ∧ value.IsLisp := by
  have history : History [] (Session.bare ["HOSTLISP", "COMMON-LISP"] 10000) :=
    .created { prelude := false } rfl
  refine ⟨?_, ?_, ?_⟩
  · have compiled : ∃ program later,
        Session.compile .nil (Session.bare ["HOSTLISP", "COMMON-LISP"] 10000) = .ok program later :=
      ⟨_, _, rfl⟩
    obtain ⟨program, later, compiled⟩ := compiled
    obtain ⟨expr, last, made, same, runs⟩ :=
      (only_lisp_values.1 [] _ history).2.2 .nil program later (.inr trivial) compiled
    cases made
    obtain ⟨-, given, arrives⟩ := runs [] _ history 1
    have headed := arrives _ rfl
    exact ⟨_, program, later, _, _, _, _, _, rfl, compiled, same, headed.2, headed.1.trans rfl,
      given _ _ (headed.1.trans rfl)⟩
  · have ok := CompilerOk.initial ["HOSTLISP", "COMMON-LISP"] 10000
    have env : EnvOk World.initial (Session.bare ["HOSTLISP", "COMMON-LISP"] 10000).state
        (Context.single {}).env := envOk_toplevel _
    have runs := (only_lisp_values.2 ok env).1
      (Session.bare ["HOSTLISP", "COMMON-LISP"] 10000).state [] _ _ (runsWith_global ok rfl)
    obtain ⟨-, single⟩ := runs.2.2.2.2.2.2.2 .nil 1 _ trivial rfl 1 1
    exact ⟨(Session.bare ["HOSTLISP", "COMMON-LISP"] 10000).state, _, _, _, rfl, rfl,
      (single _ _ rfl).1⟩
  · have data : ∀ cell ∈ lexicalBinding,
        World.initial.Datum cell.car ∧ World.initial.Datum cell.cdr := by
      simp [lexicalBinding, World.Datum]
      decide
    have ok : CompilerOk World.initial (CompileState.reading lexicalBinding) := compilerOk_reading data
    have env : EnvOk World.initial (CompileState.reading lexicalBinding) (Context.single {}).env :=
      List.forall_mem_nil _
    have binds : bindsT 4 (.cons 0) [.cons 2, .symbol SymbolId.list] "list_1"
        (CompileState.reading lexicalBinding) = true := by
      decide +kernel
    obtain ⟨⟨code, t, compiled, unlettered⟩, bindings, s₁, body, s₂, head, s₃, env', u, read, bodyRead,
      bound, finishes, applied, binding, member, reference⟩ := bindsT_parts binds
    obtain ⟨bindings', s₁', body', s₂', head', env'', u', stmts, rs, more, read', bodyRead', compiles, -,
      same, begins⟩ := (only_lisp_values.2 ok env).2.1 false (.cons 0) _ 4 code t ⟨0, rfl, rfl, rfl⟩
        compiled
    cases read.symm.trans read'
    cases bodyRead.symm.trans bodyRead'
    obtain ⟨s₃', bound', applied', -, -⟩ := compiles
    cases bound.symm.trans bound'
    cases applied.symm.trans applied'
    have written := finishes.symm.trans (same [])
    obtain rfl : rs = [] := by
      cases rs with
      | nil => rfl
      | cons r rs =>
          have long := length_rebound r rs (more ++ [])
          rw [← written, List.length_singleton] at long
          omega
    obtain rfl : more = [.define "list_1" (.support .t)] := by
      rw [List.append_nil] at written
      exact written.symm
    have body := begins [] _ _ (runsWith_global ok unlettered) 1 1 _ rfl
    obtain ⟨value, holds, isLisp⟩ := body.lisp binding member "list_1" reference
    exact ⟨code, t, _, _, _, _, value, compiled, body.runs, holds, isLisp⟩

end Example

end Values

end LispScript
