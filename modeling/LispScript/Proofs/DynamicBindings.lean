import LispScript.Proofs.Histories
import LispScript.Proofs.LiteralHeads
import LispScript.Proofs.SpecialVariables

/-!
Special variables that a form binds. Whatever LET, LET* and calls of lambda expressions come to, and
wherever they are left, each special variable that they have bound has what it had before.
-/

namespace LispScript

open Script Machine Discipline

section Ends

variable {call : Caller} {turns : Nat} {b : Address} {rs : List Rebinding} {rest : List Stmt}
  {i : Image}

/-- Dynamic bindings are made, one after another, and undone. They are made from an image on as long as
what stands before them comes to its end, and whatever the result of the whole is, each symbol that was
bound has in it what it had when it was bound first; the others have what the run of what follows the
bindings gave them. -/
def Restores (call : Caller) (turns : Nat) (b : Address) (rs : List Rebinding) (rest : List Stmt)
    (i : Image) (result : EStateM.Result Interrupt Image Value) : Prop :=
  ∃ made left saved k, rs = made ++ left ∧ Rebinding.Makes call turns b made i saved k ∧
    (∀ r more, left = r :: more → ∀ j, execBlock call turns b r.before k ≠ .ok .normal j) ∧
    ∀ last, IsOver result last →
      ∃ inner, IsOver (execBlock call turns b (Rebinding.upcoming left rest) k) inner ∧
        ∀ id, last.slot id = (saved.lookup id).getD (inner.slot id)

theorem isOver_resultOf {run : Run Flow} {last : Image} (ended : IsOver ((run >>= resultOf) i) last) :
    IsOver (run i) last := by
  change IsOver (EStateM.bind run resultOf i) last at ended
  rw [EStateM.bind] at ended
  cases ran : run i with
  | error interrupt k =>
      simp only [ran] at ended
      cases interrupt <;> exact ended
  | ok flow k =>
      simp only [ran] at ended
      cases flow <;> exact ended

theorem IsOver.imageOf {α : Type} {result : EStateM.Result Interrupt Image α} {last : Image}
    (ended : IsOver result last) : imageOf result = last := by
  cases result with
  | ok a k => exact ended
  | error interrupt k => cases interrupt <;> first | exact ended | exact ended.elim

/-- What happens to the slots of an image in which some of them are put back. -/
theorem slot_restored_getD {saved : List (SymbolId × Option Value)}
    (known : ∀ kept ∈ saved, i.Knows kept.1) (id : SymbolId) :
    (i.restored saved).slot id = (saved.lookup id).getD (i.slot id) := by
  induction saved with
  | nil => rfl
  | cons kept rest ih =>
      obtain ⟨here, others⟩ := List.forall_mem_cons.mp known
      change (Image.setSlot (i.restored rest) kept.1 kept.2).slot id = _
      by_cases same : id = kept.1
      · subst same
        rw [List.lookup_cons_self, Image.slot_setSlot (Image.knows_restored.mpr here)]
        rfl
      · rw [List.lookup_cons, beq_eq_false_iff_ne.mpr same, Image.slot_setSlot_of_ne same]
        exact ih others

/-- What was undone is over. -/
theorem Rebinding.Undoes.restores
    (calls : ∀ function args, Relates KeepsSymbols (call function args))
    (known : ∀ r ∈ rs, i.Knows r.symbol) (undoes : Rebinding.Undoes call turns b rs rest i) :
    Restores call turns b rs rest i
      ((execBlock call turns b (Rebinding.rebound rs rest) >>= resultOf) i) := by
  obtain ⟨made, left, saved, k, rfl, makes, stops, ran⟩ := undoes
  refine ⟨made, left, saved, k, rfl, makes, stops, fun last ended => ?_⟩
  have ended := isOver_resultOf ended
  rw [ran] at ended
  obtain ⟨inner, atEnd, rfl⟩ := ended.of_undone
  refine ⟨inner, atEnd, slot_restored_getD fun kept member => ?_⟩
  have before := makes.knows_saved calls (fun r member => known r (List.mem_append_left _ member))
    kept member
  have composed : Composed fun call => execBlock call turns b (Rebinding.upcoming left rest) :=
    composed_execBlock _ b
  have grown := composed.relates .keepsSymbols calls k
  rw [atEnd.imageOf] at grown
  exact Nat.lt_of_lt_of_le before grown

end Ends

namespace Compiler

section Runs

variable {call : Caller} {turns : Nat} {b c : Address} {rs : List Rebinding} {rest : List Stmt}
  {i j : Image} {W W' : World} {frame : Frame} {s t late : CompileState} {kind : Kind} {id : SymbolId}
  {context : Context} {place : Expr}

/-- Code that was compiled in a context between two states of the compiler can run in a scope of an
image: the scope has the variables of the context and the literals of the unit. -/
structure CanRun (W : World) (context : Context) (s t : CompileState) (i : Image) (b : Address) :
    Prop where
  serves : ∃ late frame manyValues, Progress t late ∧ frame.Serves context.env s.counters late ∧
    frame.Accepts context.acceptor manyValues ∧ W.Admits frame b
  describes : W.Describes i
  ordered : Ordered i.heap
  symbols : ∀ id name, t.literals.names[(LiteralKey.symbol id).code]? = some name →
    i.heap.lookupVariable? b name = some (.symbol id)

theorem CanRun.scope_lt (runs : CanRun W context s t i b) : b < i.heap.scopes.size := by
  obtain ⟨late, frame, manyValues, -, -, -, admits⟩ := runs.serves
  exact runs.describes.scopeCount ▸ admits.lt

theorem callWithin_keepsSymbols (steps : Nat) (function : Value) (args : List Value) :
    Relates KeepsSymbols (callWithin steps function args) :=
  callWithin_relates .keepsSymbols steps function args

/-- A symbol's code gives the symbol in a new scope, and frames of it know so. -/
theorem IsSymbolIn.constant {entries : List Entry} (isSymbol : IsSymbolIn t id place)
    (literals : LiteralsOk t.literals t.counters.literals entries) (knows : frame.KnowsLiterals t) :
    frame.Constant place := by
  cases isSymbol with
  | nil => exact .inl rfl
  | t => exact .inr (.inl rfl)
  | hoisted notNil held => exact (literals.has held).symbol frame knows

theorem IsSymbolIn.settles {entries : List Entry} {params : List String} {args : List Value}
    (isSymbol : IsSymbolIn t id place)
    (literals : LiteralsOk t.literals t.counters.literals entries) (runs : CanRun W context s t i b)
    (hidden : ∀ entry ∈ entries, entry.name ∉ params) :
    Settles call turns i.heap.scopes.size (activationImage i b params args) place (.ofSymbol id) := by
  cases isSymbol with
  | nil same =>
      subst same
      exact settles_nil
  | t same =>
      subst same
      exact settles_t
  | hoisted notNil held =>
      obtain ⟨entry, member, rfl, -⟩ := literals.names (.symbol id) _ held
      have unreserved : entry.name ∉ reservedNames := literalName_unreserved entry.number
      rw [Value.ofSymbol, if_neg notNil]
      refine evalExpr_ident ((lookupVariable?_activationImage runs.ordered runs.scope_lt
        (hidden entry member) ?_).trans (runs.symbols id _ held))
      exact fun same => unreserved (same ▸ by decide)

/-- Dynamic bindings in a new scope, where the rules allow what stands there, are undone. -/
theorem CanRun.restores {entries : List Entry} {params : List String} {args : List Value}
    {role : Role} {steps : Nat} {inner : Frame} (runs : CanRun W context s t i b)
    (literals : LiteralsOk t.literals t.counters.literals entries) (admits : W.Admits frame b)
    (begins : Begins W frame inner params args role) (knows : inner.KnowsLiterals t)
    (hidden : ∀ entry ∈ entries, entry.name ∉ params)
    (places : ∀ r ∈ rs, IsSymbolIn t r.symbol r.place) (known : ∀ r ∈ rs, i.Knows r.symbol)
    (derivable : Derivable inner (.returns (Rebinding.rebound rs rest) kind)) :
    Restores (callWithin steps) turns i.heap.scopes.size rs rest (activationImage i b params args)
      ((execBlock (callWithin steps) turns i.heap.scopes.size (Rebinding.rebound rs rest) >>= resultOf)
        (activationImage i b params args)) := by
  obtain ⟨W', follows, -, describes, own⟩ := begins.own runs.describes admits
  refine Rebinding.Undoes.restores (callWithin_keepsSymbols steps) known ?_
  refine Rebinding.undoes (callWithin_sound steps) (callWithin_keepsSymbols steps) describes
    own.admits (fun r member => ⟨?_, ?_⟩) known (Leads.refl _ _) follows.extends_ describes own
    derivable
  · exact (places r member).constant literals knows
  · exact (places r member).settles literals runs hidden

end Runs

section Forms

variable {W : World} {s t : CompileState} {context : Context} {depth : Nat} {form : Value}
  {args : List Value} {code : Expr} {rs : List Rebinding} {rest : List Stmt}

/-- LET, or LET* if the bindings are in order. -/
def compileBindings (compile : FormCompiler) (context : Context) (inOrder : Bool) (form : Value)
    (args : List Value) : Compile Expr :=
  if inOrder then compileLetStar compile context form args else compileLet compile context form args

/-- The step of such a form that binds the variables. -/
def bindVariables (compile : FormCompiler) (context : Context) (inOrder : Bool)
    (specials : List SymbolId) (bindings : List (SymbolId × Value)) : Compile Head :=
  if inOrder then bindInits compile context specials { env := context.env } bindings
  else do
    let (prologue, hosts) ← defineInits compile context {} bindings
    bindHosts specials { env := context.env, prologue } hosts

/-- The steps that a form with bindings is compiled in, once these and its declarations have been read.
At `u` its body is compiled. -/
def CompilesBindings (depth : Nat) (context : Context) (inOrder : Bool)
    (bindings : List (SymbolId × Value)) (body : Body) (s : CompileState) (code : Expr) (head : Head)
    (env : Environment) (u : CompileState) (stmts : List Stmt) (t : CompileState) : Prop :=
  ∃ s₁,
    bindVariables (compileWithin depth) context inOrder body.declarations.specials bindings s =
      .ok head s₁ ∧
    applyFreeDeclarations head.env body.declarations (bindings.map Prod.fst) s₁ = .ok env u ∧
    compileBody (compileWithin depth) (context.withEnv env) body.forms u = .ok stmts t ∧
    code = statementsExpr (head.prologue.finish stmts)

/-- Code of a form with bindings and a body, which were read: the values of the inits are put in script
variables, one after another, and what follows the dynamic bindings stands within them. -/
def BindsInits (depth : Nat) (context : Context) (inOrder : Bool) (form : Value) (args : List Value)
    (s : CompileState) (code : Expr) (t : CompileState) (rs : List Rebinding) (rest : List Stmt) :
    Prop :=
  ∃ bindings body s₁ s₂ head env u inits more stmts,
    parseBindings form context (args.headD .nil) s = .ok bindings s₁ ∧
    parseBody args.tail false s₁ = .ok body s₂ ∧
    CompilesBindings depth context inOrder bindings body s₂ code head env u stmts t ∧
    List.Forall₂ (IsInit (compileWithin depth)) bindings inits ∧ rest = more ++ stmts ∧
    rs.flatMap (·.before) ++ more = inits.map Init.stmt ∧
    (rs.map fun r => (r.symbol, r.host)).Sublist (inits.map Init.var) ∧
    ∀ var ∈ inits.map Init.var, var.1 ∈ body.declarations.specials ∨ s.bindings.Proclaims var.1 →
      var ∈ rs.map fun r => (r.symbol, r.host)

theorem expectArgs_ok {min : Nat} {max : Option Nat} (ok : expectArgs form args min max s = .ok () t) :
    s = t := by
  unfold expectArgs at ok
  split at ok <;> split at ok
  · obtain ⟨_, _, -, thrown⟩ := ok_of_bind ok
    cases thrown
  · cases ok
    rfl
  · obtain ⟨_, _, -, thrown⟩ := ok_of_bind ok
    cases thrown
  · cases ok
    rfl

/-- The steps that a form with bindings is compiled in. -/
theorem compileBindings_steps {inOrder : Bool}
    (ok : compileBindings (compileWithin depth) context inOrder form args s = .ok code t) :
    ∃ bindings s₁ body s₂ head env u stmts,
      parseBindings form context (args.headD .nil) s = .ok bindings s₁ ∧
      parseBody args.tail false s₁ = .ok body s₂ ∧
      CompilesBindings depth context inOrder bindings body s₂ code head env u stmts t := by
  have finishes : ∀ {bindings : List (SymbolId × Value)} {body : Body} {head : Head} {s₁ s₂ s₃},
      parseBindings form context (args.headD .nil) s = .ok bindings s₁ →
      parseBody args.tail false s₁ = .ok body s₂ →
      bindVariables (compileWithin depth) context inOrder body.declarations.specials bindings s₂ =
        .ok head s₃ →
      finishBinding (compileWithin depth) context head.prologue head.env body
        (bindings.map Prod.fst) s₃ = .ok code t →
      ∃ bindings s₁ body s₂ head env u stmts,
        parseBindings form context (args.headD .nil) s = .ok bindings s₁ ∧
        parseBody args.tail false s₁ = .ok body s₂ ∧
        CompilesBindings depth context inOrder bindings body s₂ code head env u stmts t := by
    intro bindings body head s₁ s₂ s₃ read bodyRead bound ok
    obtain ⟨env, u, applied, ok⟩ := ok_of_bind ok
    obtain ⟨stmts, v, compiled, ended⟩ := ok_of_bind ok
    cases ended
    exact ⟨bindings, s₁, body, s₂, head, env, u, stmts, read, bodyRead, s₃, bound, applied, compiled,
      rfl⟩
  cases inOrder with
  | false =>
      obtain ⟨_, s₀, expected, ok⟩ := ok_of_bind ok
      obtain rfl := expectArgs_ok expected
      obtain ⟨bindings, s₁, read, ok⟩ := ok_of_bind ok
      obtain ⟨body, s₂, bodyRead, ok⟩ := ok_of_bind ok
      obtain ⟨⟨prologue, hosts⟩, s₃, defined, ok⟩ := ok_of_bind ok
      obtain ⟨head, s₄, bound, ok⟩ := ok_of_bind ok
      refine finishes read bodyRead ?_ ok
      rw [Compiler.bindVariables, if_neg Bool.false_ne_true, bind_ended defined]
      exact bound
  | true =>
      obtain ⟨_, s₀, expected, ok⟩ := ok_of_bind ok
      obtain rfl := expectArgs_ok expected
      obtain ⟨bindings, s₁, read, ok⟩ := ok_of_bind ok
      obtain ⟨body, s₂, bodyRead, ok⟩ := ok_of_bind ok
      obtain ⟨head, s₃, bound, ok⟩ := ok_of_bind ok
      exact finishes read bodyRead bound ok

/-- What is around a body when the variables have been bound. -/
theorem Rebinds.bindVariables {inOrder : Bool} {specials : List SymbolId}
    {bindings : List (SymbolId × Value)} {head : Head} {s₀ : CompileState} (before : Lasts s₀ s)
    (ok : Compiler.bindVariables (compileWithin depth) context inOrder specials bindings s =
      .ok head t) :
    ∃ (inits : List Init) (rs : List Rebinding),
      List.Forall₂ (IsInit (compileWithin depth)) bindings inits ∧
      Rebinds s₀ specials (inits.map Init.var) (inits.map Init.stmt) t head.prologue rs := by
  have forms := compileWithin_obeys (R := Lasts) depth
  cases inOrder with
  | false =>
      obtain ⟨⟨prologue, hosts⟩, s₁, defined, bound⟩ := ok_of_bind ok
      have before₁ := Interning.trans before
        ((defineInits_obeys forms context {} bindings).ended defined)
      obtain ⟨inits, rfl, rfl, are⟩ := defineInits_ok defined
      have start := (Rebinds.start s₀ s₁ specials []).add (inits.map Init.stmt)
      obtain ⟨rs, rebinds⟩ := Rebinds.bindHosts before₁ start bound
      exact ⟨inits, rs, are, rebinds⟩
  | true => exact Rebinds.bindInits forms before (Rebinds.start s₀ s specials []) ok

theorem compileBindings_ok {inOrder : Bool}
    (ok : compileBindings (compileWithin depth) context inOrder form args s = .ok code t) :
    ∃ rs rest, code = statementsExpr (Rebinding.rebound rs rest) ∧
      BindsInits depth context inOrder form args s code t rs rest ∧
      ∀ r ∈ rs, IsSymbolIn t r.symbol r.place := by
  obtain ⟨bindings, s₁, body, s₂, head, env, u, stmts, read, bodyRead, steps⟩ :=
    compileBindings_steps ok
  obtain ⟨s₃, bound, applied, compiled, rfl⟩ := id steps
  have before : Lasts s s₂ := Interning.trans
    ((parseBindings_obeys (R := Lasts) _ _ _).ended read) ((parseBody_obeys _ _).ended bodyRead)
  have after : Lasts s₃ t := Interning.trans ((applyFreeDeclarations_obeys _ _ _).ended applied)
    ((compileBody_obeys (compileWithin_obeys depth) _ _).ended compiled)
  obtain ⟨inits, rs, are, rebinds⟩ := Rebinds.bindVariables before bound
  refine ⟨rs, head.prologue.current ++ stmts, by rw [rebinds.finish], ⟨bindings, body, s₁, s₂, head,
    env, u, inits, head.prologue.current, stmts, read, bodyRead, steps, are, rfl, rebinds.between,
    rebinds.among, rebinds.dynamic⟩, fun r member => (rebinds.places r member).lasts after⟩

theorem length_rebound (r : Rebinding) (rs : List Rebinding) (rest : List Stmt) :
    3 ≤ (Rebinding.rebound (r :: rs) rest).length := by
  change 3 ≤ (r.before ++ [_, _, _]).length
  rw [List.length_append]
  exact Nat.le_add_left 3 _

theorem statementsExpr_rebound (some_ : rs ≠ []) :
    statementsExpr (Rebinding.rebound rs rest) = .wrap (Rebinding.rebound rs rest) := by
  obtain ⟨r, rs, rfl⟩ := List.exists_cons_of_ne_nil some_
  have long := length_rebound r rs rest
  unfold statementsExpr
  split
  · rename_i same
    rw [same] at long
    contradiction
  · rfl

/-- What a form with bindings comes to, wherever it is left. -/
theorem compileBindings_restores {W₀ : World} {inOrder : Bool} (ok : CompilerOk W₀ s)
    (env : EnvOk W₀ s context.env) (data : W₀.Data args)
    (compiled : compileBindings (compileWithin depth) context inOrder form args s = .ok code t) :
    ∃ rs rest, code = statementsExpr (Rebinding.rebound rs rest) ∧
      BindsInits depth context inOrder form args s code t rs rest ∧
      ∀ W i b, CanRun W context s t i b → (∀ r ∈ rs, i.Knows r.symbol) → rs ≠ [] →
        ∀ steps turns, Restores (callWithin steps) turns i.heap.scopes.size rs rest (i.inside b)
          (evalExpr (callWithin steps) turns b code i) := by
  obtain ⟨rs, rest, same, binds, places⟩ := compileBindings_ok compiled
  refine ⟨rs, rest, same, binds, fun W i b runs known some_ steps turns => ?_⟩
  have built : Built W₀ s (compileBindings (compileWithin depth) context inOrder form args)
      fun _ s' code => Compiles context s s' code := by
    cases inOrder with
    | false => exact Built.compileLet (CompilesForms.within depth) ok env data
    | true => exact Built.compileLetStar (CompilesForms.within depth) ok env data
  rw [Built, compiled] at built
  cases built with
  | ok _ _ ok' compiles =>
      obtain ⟨late, frame, manyValues, progress, serves, accepts, admits⟩ := runs.serves
      obtain ⟨entries, literals⟩ := ok'.literals
      have derivable := (compiles late frame progress serves manyValues accepts).unfolds
      rw [same, statementsExpr_rebound some_] at derivable ⊢
      obtain ⟨kind, inner⟩ | ⟨value, e, short⟩ := derivable
      · rw [evalExpr_wrap]
        exact runs.restores literals admits (.inside W frame)
          (serves.inside.knowsLiterals.earlier progress) (fun _ _ => List.not_mem_nil) places known inner
      · obtain ⟨r, rs, rfl⟩ := List.exists_cons_of_ne_nil some_
        have long := length_rebound r rs rest
        rw [short] at long
        contradiction

end Forms

section Functions

variable {s t u : CompileState} {context : Context} {depth : Nat} {lambdaList : Value}
  {body : List Value} {name : Option SymbolId} {code : Expr} {list : LambdaList} {parsed : Body}
  {rs : List Rebinding} {rest : List Stmt} {i : Image}

theorem functionCode_inj {holder holder' : String} {hosts hosts' : List String}
    {stmts stmts' : List Stmt} {properties properties' : List (String × String)}
    (same : functionCode holder hosts stmts properties =
      functionCode holder' hosts' stmts' properties') : hosts = hosts' ∧ stmts = stmts' := by
  unfold functionCode at same
  split at same <;> split at same
  · cases same
    exact ⟨rfl, rfl⟩
  · cases same
  · cases same
  · have functions := (Expr.call.inj same).2
    cases functions
    exact ⟨rfl, rfl⟩

/-- A call that is not refused is over where its body is, but for the depth. -/
theorem isOver_counted {α : Type} {run : Run α} {last : Image} (deep : i.depth < i.depthLimit)
    (ended : IsOver (counted run i) last) :
    ∃ inner, IsOver (run { i with depth := i.depth + 1 }) inner ∧ inner.symbols = last.symbols := by
  rw [counted, if_pos deep] at ended
  cases ran : run { i with depth := i.depth + 1 } with
  | ok a inner =>
      simp only [ran] at ended
      exact ⟨inner, rfl, ended ▸ rfl⟩
  | error interrupt inner =>
      simp only [ran] at ended
      cases interrupt with
      | outOfSteps => exact ended.elim
      | thrown value => exact ⟨inner, rfl, ended ▸ rfl⟩
      | failed error => exact ⟨inner, rfl, ended ▸ rfl⟩

/-- Code of a lambda expression: the statements at its head bind the variables, and what follows the
dynamic bindings stands within them. Where a required or an optional parameter is special, it gets the
argument that is passed to it. -/
def BindsParameters (depth : Nat) (context : Context) (list : LambdaList) (parsed : Body)
    (name : Option SymbolId) (s : CompileState) (code : Expr) (hosts : List String)
    (rs : List Rebinding) (rest : List Stmt) : Prop :=
  ∃ head env u more stmts vars,
    CompilesFunction depth context list parsed name s code head hosts env u stmts ∧
    rest = more ++ stmts ∧ head.prologue.finish stmts = Rebinding.rebound rs rest ∧
    (rs.map fun r => (r.symbol, r.host)).Sublist vars ∧
    (∀ id, id ∈ vars.map Prod.fst ↔ id ∈ list.boundVars) ∧
    (∀ var ∈ (list.required ++ list.optional.map (·.var)).zip hosts, var ∈ vars) ∧
    ∀ var ∈ vars, var.1 ∈ parsed.declarations.specials ∨ s.bindings.Proclaims var.1 →
      var ∈ rs.map fun r => (r.symbol, r.host)

theorem compileLambda_ok
    (compiled : compileLambda (compileWithin depth) context lambdaList body name s = .ok code t) :
    ∃ list s₁ parsed s₂ hosts rs rest, parseLambdaList lambdaList s = .ok list s₁ ∧
      parseBody body true s₁ = .ok parsed s₂ ∧
      BindsParameters depth context list parsed name s₂ code hosts rs rest ∧
      (∃ holder properties, code = functionCode holder hosts (Rebinding.rebound rs rest) properties) ∧
      ∀ r ∈ rs, IsSymbolIn t r.symbol r.place := by
  obtain ⟨list, s₁, read, following⟩ := ok_of_bind compiled
  obtain ⟨parsed, s₂, bodyRead, -⟩ := ok_of_bind following
  obtain ⟨head, hosts, env, u, stmts, parts, onward⟩ := compileLambda_parts compiled read bodyRead
  obtain ⟨s₃, s₄, s₅, s₆, forms, holder, properties, checked, made, bound, applied, -, -, same⟩ :=
    id parts
  have checks : Lasts s₂ s₃ := (Obeys.forM list.boundVars fun id =>
    checkBindable_obeys context id).ended checked
  have builds : Lasts s₃ s₄ := by
    obtain ⟨heap, rfl, -⟩ := (bodyForms_ok made).heap
    exact .same rfl rfl
  obtain ⟨vars, ⟨-, between, rs, rebinds⟩, are, positional⟩ := bindParameters_hasBound
    (compileWithin_obeys depth) (parseLambdaList_keyed lambdaList s list s₁ read) bound
  have after : Lasts s₅ t := Interning.trans
    ((applyFreeDeclarations_obeys _ _ _).ended applied) (onward Lasts)
  refine ⟨list, s₁, parsed, s₂, hosts, rs, head.prologue.current ++ stmts, read, bodyRead,
    ⟨head, env, u, head.prologue.current, stmts, vars, parts, rfl, rebinds.finish stmts,
      rebinds.among, are, positional, fun var member special => ?_⟩, ⟨holder, properties, ?_⟩,
    fun r member => (rebinds.places r member).lasts after⟩
  · exact rebinds.dynamic var member (special.imp_right
      ((Interning.trans checks builds : Lasts s₂ s₄).proclaimed var.1))
  · rw [← rebinds.finish]
    exact same

/-- What calls of a lambda expression come to, wherever they are left. -/
theorem compileLambda_restores {W₀ : World} (ok : CompilerOk W₀ s) (env : EnvOk W₀ s context.env)
    (datum : W₀.Datum lambdaList) (data : W₀.Data body)
    (compiled : compileLambda (compileWithin depth) context lambdaList body name s = .ok code t) :
    ∃ list s₁ parsed s₂ hosts rs rest, parseLambdaList lambdaList s = .ok list s₁ ∧
      parseBody body true s₁ = .ok parsed s₂ ∧
      BindsParameters depth context list parsed name s₂ code hosts rs rest ∧
      ∀ (W : World) i scope fn, CanRun W context.single s t i scope →
        (i.heap.function fn).callable =
          .closure ("values" :: hosts) (Rebinding.rebound rs rest) scope →
        (∀ r ∈ rs, i.Knows r.symbol) → i.depth < i.depthLimit →
        ∀ manyValues data, W.Data data → data.length + 1 < ampleArguments → ∀ steps,
          let args := acceptorValue manyValues :: data
          let inside := { i with depth := i.depth + 1 }
          Restores (callWithin steps) steps i.heap.scopes.size rs rest
            (activationImage inside scope ("values" :: hosts) args)
            (callWithin (steps + 1) (.function fn) args i) := by
  obtain ⟨list, s₁, parsed, s₂, hosts, rs, rest, read, bodyRead, binds, ⟨holder, properties, rfl⟩,
    places⟩ := compileLambda_ok compiled
  refine ⟨list, s₁, parsed, s₂, hosts, rs, rest, read, bodyRead, binds, ?_⟩
  intro W i scope fn runs callable known deep manyValues values isData few steps args inside
  have built := Built.compileLambda (CompilesForms.within depth) ok env datum data name
  rw [Built, compiled] at built
  cases built with
  | ok _ _ ok' makes =>
      obtain ⟨holder', hosts', stmts', properties', same, -, -, isBody⟩ := makes.parts
      obtain ⟨rfl, rfl⟩ := functionCode_inj same
      obtain ⟨late, frame, _, progress, serves, -, admits⟩ := runs.serves
      obtain ⟨entries, literals⟩ := ok'.literals
      obtain ⟨canEnter, derivable⟩ := isBody late frame progress serves
      have knows := serves.knowsLiterals.earlier progress
      -- The literals are not hidden by the parameters, which are new.
      have outside : ∀ entry ∈ entries, entry.name ∉ hosts := by
        intro entry member inside
        have known := knows entry.name entry.value (by
          rw [literals.initializers]
          exact List.mem_map.mpr ⟨entry, member, rfl⟩)
        rw [(canEnter.2 entry.name inside).1] at known
        cases known
      have hidden : ∀ entry ∈ entries, entry.name ∉ "values" :: hosts := by
        intro entry member inside
        have unreserved : entry.name ∉ reservedNames := literalName_unreserved entry.number
        rcases List.mem_cons.mp inside with same | among
        · exact unreserved (same ▸ by decide)
        · exact outside entry member among
      have knowsInner : (frame.enter manyValues (values.length + 1) hosts).KnowsLiterals t := by
        intro name value member
        have held := knows name value member
        rw [literals.initializers] at member
        obtain ⟨entry, inside, same⟩ := List.mem_map.mp member
        cases same
        have unreserved : entry.name ∉ reservedNames := literalName_unreserved entry.number
        rwa [frame.enter_of_notMem manyValues unreserved fun taken =>
          outside entry inside (List.mem_of_mem_take taken)]
      have runs' : CanRun W context.single s t inside scope :=
        ⟨runs.serves, { runs.describes with }, runs.ordered, runs.symbols⟩
      have body : Restores (callWithin steps) steps i.heap.scopes.size rs rest
          (activationImage inside scope ("values" :: hosts) args) _ :=
        runs'.restores literals admits (.enter canEnter manyValues isData few) knowsInner hidden
          places known (derivable manyValues (values.length + 1) (Nat.le_add_left 1 _) few)
      obtain ⟨made, left, saved, k, parts, makes, stops, undone⟩ := body
      refine ⟨made, left, saved, k, parts, makes, stops, fun last ended => ?_⟩
      have called : callWithin (steps + 1) (.function fn) args i = _ :=
        callWithin_closure callable few
      rw [called] at ended
      obtain ⟨inner, atEnd, symbols⟩ := isOver_counted deep ended
      obtain ⟨body, bodyEnd, slots⟩ := undone inner atEnd
      refine ⟨body, bodyEnd, fun id => ?_⟩
      rw [← slots id, Image.slot, Image.slot, symbols]

end Functions

section Undoing

/-- Dynamic bindings are always undone. LET and LET*, with any inits and any body, and lambda expressions,
with any defaults and any body, bind special variables, which are those that they declare special or
that are proclaimed so, by dynamic bindings: in the order in which they stand, each gives its symbol what
the script variable of the binding holds. However such a form is left, or a call of such a function, and
whichever of its bindings have been made then, each symbol that was bound has the slot again that it had
when it was bound first. What refers to a special variable, wherever it runs, gets what the slot has. -/
theorem special_bindings_undone {W₀ : World} {s : CompileState} {context : Context}
    (ok : CompilerOk W₀ s) (env : EnvOk W₀ s context.env) :
    (∀ (inOrder : Bool) form args depth code t,
      IsForm s.image.heap (if inOrder then .bindInOrder else .bind) args form →
      compileWithin (depth + 1) context form s = .ok code t →
      ∃ rs rest, code = statementsExpr (Rebinding.rebound rs rest) ∧
        BindsInits depth context inOrder form args s code t rs rest ∧
        ∀ W i b, CanRun W context s t i b → (∀ r ∈ rs, i.Knows r.symbol) → rs ≠ [] →
          ∀ steps turns, Restores (callWithin steps) turns i.heap.scopes.size rs rest (i.inside b)
            (evalExpr (callWithin steps) turns b code i)) ∧
    (∀ lambdaList body name depth code t, W₀.Datum lambdaList → W₀.Data body →
      compileLambda (compileWithin depth) context lambdaList body name s = .ok code t →
      ∃ list s₁ parsed s₂ hosts rs rest, parseLambdaList lambdaList s = .ok list s₁ ∧
        parseBody body true s₁ = .ok parsed s₂ ∧
        BindsParameters depth context list parsed name s₂ code hosts rs rest ∧
        ∀ (W : World) i scope fn, CanRun W context.single s t i scope →
          (i.heap.function fn).callable =
            .closure ("values" :: hosts) (Rebinding.rebound rs rest) scope →
          (∀ r ∈ rs, i.Knows r.symbol) → i.depth < i.depthLimit →
          ∀ manyValues data, W.Data data → data.length + 1 < ampleArguments → ∀ steps,
            let args := acceptorValue manyValues :: data
            let inside := { i with depth := i.depth + 1 }
            Restores (callWithin steps) steps i.heap.scopes.size rs rest
              (activationImage inside scope ("values" :: hosts) args)
              (callWithin (steps + 1) (.function fn) args i)) ∧
    ∀ steps turns b place (i : Image) id value, Ordered i.heap →
      Settles (callWithin (steps + 1)) turns b i place (.ofSymbol id) → i.slot id = some value →
        evalExpr (callWithin (steps + 1)) turns b (.callPrimitive .symbolValue [place]) i =
          .ok value i := by
  refine ⟨fun inOrder form args depth code t isForm compiled => ?_,
    fun lambdaList body name depth code t datum data compiled =>
      compileLambda_restores ok env datum data compiled,
    fun steps turns b place i id value ordered settles held => ?_⟩
  · have data : W₀.Data args := isForm.data ok.describes
    rw [compileWithin_special isForm] at compiled
    have compiled : compileBindings (compileWithin depth) context inOrder form args s = .ok code t := by
      cases inOrder <;> exact compiled
    exact compileBindings_restores ok env data compiled
  · have read : evalList (callWithin (steps + 1)) turns b [place] i = .ok [.ofSymbol id] i := by
      rw [evalList, bind_of_ok settles]
      rfl
    rw [evalExpr_primitive ordered read]
    change symbolValue (.ofSymbol id) i = _
    have named : symbolOf (.ofSymbol id) i = .ok id i := by
      rw [symbolOf, Value.asSymbol?_ofSymbol]
      rfl
    have table : Run.symbols i = .ok i.symbols i := rfl
    have held : (i.symbols.symbol id).value = some value := held
    rw [symbolValue, bind_of_ok named, bind_of_ok table]
    simp only [held]
    rfl

end Undoing

section Example

variable {t : CompileState} {cells : List Cell} {id : SymbolId} {number : Nat}

theorem compilerOk_reading
    (data : ∀ cell ∈ cells, World.initial.Datum cell.car ∧ World.initial.Datum cell.cdr) :
    CompilerOk World.initial (CompileState.reading cells) where
  describes := { World.describes_initial 1000 with
    cells := fun cell member => data cell (List.mem_toArray.mp member) }
  someScope := nofun
  bounded := ⟨Nat.zero_le _, Nat.zero_le _, Nat.zero_le _, Nat.zero_le _⟩
  globals key binding found := by
    obtain ⟨⟨known, reference⟩, isGlobal⟩ := (CompilerOk.initial [] 1000).globals key binding found
    exact ⟨⟨known, reference⟩, isGlobal⟩
  literals := (CompilerOk.initial [] 1000).literals

/-- The only literal of a unit is a symbol. -/
def onlyLiteral (id : SymbolId) (number : Nat) (t : CompileState) : Bool :=
  t.literals.names.toList == [((LiteralKey.symbol id).code, literalName number)] &&
    t.literals.initializers.toList.all fun
      | .define name value => name == literalName number && decide (madeKind value = .symbol)
      | _ => true

/-- The first image, with a scope in which a literal of a unit has its value. -/
def Image.withLiteral (cells : List Cell) (number : Nat) (id : SymbolId) : Image :=
  let i := (CompileState.reading cells).image
  { i with heap := (i.heap.allocScope
      ⟨({} : Variables).insert (literalName number) (.symbol id), some Image.globalScope, true⟩).2 }

theorem canRun_withLiteral
    (data : ∀ cell ∈ cells, World.initial.Datum cell.car ∧ World.initial.Datum cell.cdr)
    (notNil : id ≠ SymbolId.nil) (only : onlyLiteral id number t = true) :
    ∃ W, CanRun W (Context.single {}) (CompileState.reading cells) t
      (Image.withLiteral cells number id) 1 := by
  obtain ⟨names, initializers⟩ := Bool.and_eq_true_iff.mp only
  have names := eq_of_beq names
  rw [List.all_eq_true] at initializers
  let layout : Layout := fun name => if name = literalName number then some .symbol else none
  let frame : Frame := { kinds := layout }
  have isSymbol : (World.initial.Datum (.symbol id) ∧ (Value.symbol id).asSymbol?.isSome) :=
    ⟨notNil, rfl⟩
  have serves : frame.Serves [] (CompileState.reading cells).counters t := by
    refine ⟨fun name made _ => if_neg (made.ne_literal number), List.forall_mem_nil _,
      fun name value member => ?_⟩
    obtain ⟨same, symbol⟩ := Bool.and_eq_true_iff.mp (initializers _ member)
    rw [eq_of_beq same, of_decide_eq_true symbol]
    exact ⟨literalName_unreserved number, if_pos rfl⟩
  have inserted (name : String) : (({} : Variables).insert (literalName number) (.symbol id))[name]? =
      if name = literalName number then some (.symbol id) else none := by
    rw [Std.TreeMap.getElem?_insert]
    by_cases same : name = literalName number
    · rw [if_pos same, if_pos (Std.LawfulEqCmp.compare_eq_iff_eq.mpr same.symm)]
    · rw [if_neg same, if_neg fun equal =>
        same (Std.LawfulEqCmp.compare_eq_iff_eq.mp equal).symm]
      exact Std.TreeMap.getElem?_emptyc
  have describes := (compilerOk_reading data).describes
  have scopeOk : World.initial.ScopeOk World.initial.scopes World.initial.scopes.length layout
      ⟨({} : Variables).insert (literalName number) (.symbol id), some Image.globalScope, true⟩ := by
    refine ⟨fun name kind listed => ?_, fun value held => ?_, fun name held value listed token => ?_,
      fun name value held unlisted => ?_⟩
    · change (if name = literalName number then some Kind.symbol else none) = _ at listed
      split at listed
      · rename_i same
        cases listed
        exact .inl ⟨.symbol id, by rw [inserted, if_pos same], isSymbol⟩
      · cases listed
    · rw [inserted, if_neg (literalName_ne_values number).symm] at held
      cases held
    · change (if name = literalName number then some Kind.symbol else none) = _ at listed
      split at listed
      · cases listed
        exact token.elim
      · cases listed
    · rw [inserted] at held
      split at held
      · rename_i same
        cases (if_pos same).symm.trans unlisted
      · cases held
  have ordered : Ordered (CompileState.reading cells).image.heap := Machine.Ordered.initial _
  refine ⟨_, ⟨t, frame, false, .refl t, serves, .inl rfl, layout, rfl, fun _ _ held => held⟩,
    describes.allocScope scopeOk, ?_, fun other name held => ?_⟩
  · have opened : Steady (fun _ _ => False) (CompileState.reading cells).image
        (Image.withLiteral cells number id) := .allocScope ordered.valid rfl Nat.one_pos
    exact opened.ordered
  · have member := Std.TreeMap.mem_toList_iff_getElem?_eq_some.mpr held
    rw [names] at member
    obtain ⟨same, rfl⟩ := Prod.mk.inj (List.mem_singleton.mp member)
    cases LiteralKey.code_inj.mp same
    refine lookupVariable?_own (Nat.lt_succ_self 1) ?_
    exact (inserted _).trans (if_pos rfl)

/-- `(LET ((LIST T)) (DECLARE (SPECIAL LIST)) LIST)`. -/
def specialBinding : List Cell :=
  [⟨.symbol SpecialForm.bind.symbol, .cons 1⟩, ⟨.cons 2, .cons 4⟩, ⟨.cons 3, .nil⟩,
    ⟨.symbol SymbolId.list, .cons 8⟩, ⟨.cons 5, .cons 9⟩, ⟨.symbol SymbolId.declare, .cons 6⟩,
    ⟨.cons 7, .nil⟩, ⟨.symbol SymbolId.special, .cons 9⟩, ⟨.symbol SymbolId.t, .nil⟩,
    ⟨.symbol SymbolId.list, .nil⟩]

/-- A form with bindings binds one variable, which it declares special, and compiles to code with one
literal. -/
def bindsDynamic (depth : Nat) (form : Value) (args : List Value) (id : SymbolId) (number : Nat)
    (s : CompileState) : Bool :=
  (match compileWithin depth (Context.single {}) form s with
    | .ok _ t => onlyLiteral id number t
    | _ => false) &&
  match parseBindings form (Context.single {}) (args.headD .nil) s with
  | .ok [(other, _)] s₁ => other == id && match parseBody args.tail false s₁ with
    | .ok body _ => body.declarations.specials.contains id
    | _ => false
  | _ => false

theorem bindsDynamic_parts {depth : Nat} {form : Value} {args : List Value} {s : CompileState}
    (binds : bindsDynamic depth form args id number s = true) :
    (∃ code t, compileWithin depth (Context.single {}) form s = .ok code t ∧
      onlyLiteral id number t = true) ∧
    ∃ init s₁ body s₂,
      parseBindings form (Context.single {}) (args.headD .nil) s = .ok [(id, init)] s₁ ∧
      parseBody args.tail false s₁ = .ok body s₂ ∧ id ∈ body.declarations.specials := by
  obtain ⟨compiles, reads⟩ := Bool.and_eq_true_iff.mp binds
  constructor
  · split at compiles
    · rename_i code t ok
      exact ⟨code, t, ok, compiles⟩
    · cases compiles
  · split at reads
    · rename_i other init s₁ read
      obtain ⟨same, reads⟩ := Bool.and_eq_true_iff.mp reads
      split at reads
      · rename_i body s₂ bodyRead
        rw [eq_of_beq same] at read
        exact ⟨init, s₁, body, s₂, read, bodyRead, by simpa using reads⟩
      · cases reads
    · cases reads

theorem special_bindings_undone_of_list :
    let s := CompileState.reading specialBinding
    let form := Value.cons 0
    CompilerOk World.initial s ∧ EnvOk World.initial s (Context.single {}).env ∧
    ∃ code t rs rest i, compileWithin 5 (Context.single {}) form s = .ok code t ∧
      code = statementsExpr (Rebinding.rebound rs rest) ∧ rs.map (·.symbol) = [SymbolId.list] ∧
      ∀ steps turns, Restores (callWithin steps) turns i.heap.scopes.size rs rest (i.inside 1)
        (evalExpr (callWithin steps) turns 1 code i) := by
  intro s form
  let args : List Value := [.cons 2, .cons 5, .symbol SymbolId.list]
  have data : ∀ cell ∈ specialBinding,
      World.initial.Datum cell.car ∧ World.initial.Datum cell.cdr := by
    simp [specialBinding, World.Datum]
    decide
  have ok : CompilerOk World.initial s := compilerOk_reading data
  have env : EnvOk World.initial s (Context.single {}).env := List.forall_mem_nil _
  refine ⟨ok, env, ?_⟩
  have known : bindsDynamic 5 form args SymbolId.list 1 s = true := by
    decide +kernel
  obtain ⟨⟨code, t, compiled, only⟩, init, s₁, body, s₂, read, bodyRead, declared⟩ :=
    bindsDynamic_parts known
  have isForm : IsForm s.image.heap .bind args form := ⟨0, rfl, rfl, rfl⟩
  obtain ⟨rs, rest, isCode, binds, restores⟩ :=
    (special_bindings_undone ok env).1 false form args 4 code t isForm compiled
  obtain ⟨bindings', body', s₁', s₂', head, env', u, inits, more, stmts, read', bodyRead', -, are, -, -,
    among, dynamic⟩ := binds
  cases read.symm.trans read'
  cases bodyRead.symm.trans bodyRead'
  have notNil : SymbolId.list ≠ SymbolId.nil := by decide
  obtain ⟨W, runs⟩ := canRun_withLiteral data notNil only
  cases are with
  | cons isInit others =>
      cases others
      rename_i one
      have same : one.symbol = SymbolId.list := isInit.1
      have member := dynamic one.var (List.mem_singleton_self _) (.inl (by
        rwa [Init.var, same]))
      have only : rs.map (fun r => (r.symbol, r.host)) = [one.var] := by
        rcases List.sublist_singleton.mp among with none | only
        · rw [none] at member
          cases member
        · exact only
      have symbols : rs.map (·.symbol) = [SymbolId.list] := by
        have firsts := congrArg (List.map Prod.fst) only
        rw [List.map_map] at firsts
        exact firsts.trans (congrArg (fun id => [id]) same)
      have known : ∀ r ∈ rs, (Image.withLiteral specialBinding 1 SymbolId.list).Knows r.symbol := by
        intro r inside
        have isList : r.symbol ∈ rs.map (·.symbol) := List.mem_map_of_mem inside
        rw [symbols, List.mem_singleton] at isList
        rw [isList]
        exact (by decide +kernel : SymbolId.list.index < Image.initialSymbols.symbolCount)
      have some_ : rs ≠ [] := by
        rintro rfl
        cases symbols
      exact ⟨code, t, rs, rest, _, compiled, isCode, symbols, restores W _ 1 runs known some_⟩

end Example

end Compiler

end LispScript
