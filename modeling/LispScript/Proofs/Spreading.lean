import LispScript.Proofs.DefaultScopes
import LispScript.Proofs.Hoisting
import LispScript.Proofs.Lowering

/-!
Forms that a lowered body is made of: how a call of `APPLY` with a lambda expression and a `LET` around
it are compiled, and where the forms inside them are compiled.
-/

namespace LispScript.Compiler

open Script

variable {s s₁ t u : CompileState} {env : Environment} {context : Context} {depth : Nat}
  {form : Value} {args : List Value} {code : Expr} {id : SymbolId}

section Proceeding

theorem Spares.held {α : Type} {spared : String → Prop} {step : Compile α} {P : α → Prop} {a : α}
    (spares : Spares spared step P) (sparing : Sparing spared s) (done : step s = .ok a t) : P a := by
  have ends := spares s sparing
  rw [done] at ends
  cases ends with
  | ok _ _ held => exact held

theorem later_compileWithin (ok : compileWithin depth context form s = .ok code t) : Later s t :=
  fun _ _ => (compileWithin_obeys _ _ _).ended ok

/-- The compiler has gone on: names mean what they meant, and what was made is there still. -/
structure Proceeds (s t : CompileState) : Prop where
  bindings : s.bindings.OnlyGains t.bindings
  counters : s.counters.Leads t.counters
  heap : s.image.heap.Keeps t.image.heap
  symbols : s.image.symbols.OnlyGains t.image.symbols
  later : Later s t

theorem Proceeds.trans (first : Proceeds s t) (second : Proceeds t u) : Proceeds s u :=
  ⟨first.bindings.trans second.bindings, first.counters.trans second.counters,
    first.heap.trans second.heap, first.symbols.trans second.symbols, first.later.trans second.later⟩

theorem Onward.proceeds (onward : Onward s t) (later : Later s t) : Proceeds s t :=
  ⟨onward.bindings, onward.counters, onward.image ▸ .refl _, onward.image ▸ .refl _, later⟩

/-- The compiler has gone on into an environment that has some more variables. All other names mean
what they meant. -/
structure Widens (bound : List SymbolId) (s t : CompileState) (env env' : Environment) : Prop where
  proceeds : Proceeds s t
  ready : Ready t env'
  meaning : ∀ id, id ∉ bound → t.bindings.meaning? env' (.ofSymbol id) .vars =
    s.bindings.meaning? env (.ofSymbol id) .vars
  functions : ∀ name, t.bindings.meaning? env' name .functions = s.bindings.meaning? env name .functions
  locals : (∀ binding ∈ env, s.bindings.IsLocal binding) → ∀ binding ∈ env', t.bindings.IsLocal binding

variable {bound more : List SymbolId} {env' env'' : Environment}

theorem Binds.widens (binds : Binds bound s t env env') (later : Later s t) :
    Widens bound s t env env' :=
  ⟨binds.onward.proceeds later, binds.ready, binds.meaning, binds.functions, binds.locals⟩

theorem Ready.widens (ready : Ready s env) : Widens [] s s env env :=
  (ready.stays.binds ready).widens (.refl s)

theorem Widens.trans (first : Widens bound s t env env') (second : Widens more t u env' env'') :
    Widens (bound ++ more) s u env env'' where
  proceeds := first.proceeds.trans second.proceeds
  ready := second.ready
  meaning id free := by
    rw [List.mem_append, not_or] at free
    rw [second.meaning id free.2, first.meaning id free.1]
  functions name := (second.functions name).trans (first.functions name)
  locals all := second.locals (first.locals all)

theorem Widens.mono (widens : Widens bound s t env env') (wider : bound ⊆ more) :
    Widens more s t env env' :=
  { widens with meaning := fun id free => widens.meaning id fun member => free (wider member) }

theorem Widens.isHost (widens : Widens bound s t env env') (free : id ∉ bound) {host : String} :
    IsHost t env' id host ↔ IsHost s env id host := by
  rw [IsHost, IsHost, widens.meaning id free]

/-- A step that at most interns keywords. -/
theorem Interns.widens (interns : Interns s t) (isolated : Isolated s t) (later : Later s t)
    (ready : Ready s env) : Widens [] s t env env := by
  obtain ⟨symbols, rfl⟩ := interns
  exact ⟨⟨.refl _, .refl _, .refl _, isolated.symbols, later⟩, ready.interns ⟨symbols, rfl⟩,
    fun _ _ => rfl, fun _ => rfl, id⟩

/-- A script variable of an environment is there still, whatever forms are compiled. -/
theorem IsHost.later {host : String} (isHost : IsHost s env id host) (globals : NoGlobalHost s.bindings)
    (locals : ∀ binding ∈ env, s.bindings.IsLocal binding) (later : Later s t) : IsHost t env id host := by
  unfold IsHost Bindings.meaning? at isHost ⊢
  cases found : env.lookup? (.ofSymbol id) .vars with
  | some binding =>
      rw [found] at isHost
      obtain ⟨-, means⟩ := (later KeepsLocals).locals binding
        (locals binding (List.mem_of_find?_eq_some found))
      exact (congrArg some means).trans isHost
  | none =>
      rw [found] at isHost
      simp only [Value.asSymbol?_ofSymbol, Option.some.injEq, Bindings.globalMeaning] at isHost
      cases global : s.bindings.getGlobal? id .vars with
      | none =>
          rw [global] at isHost
          cases isHost
      | some binding =>
          rw [global] at isHost
          exact absurd (congrArg Meaning.reference isHost) (globals _ binding host global)

/-- A stage later, whatever forms were compiled in between: an environment still can be gone on in. -/
theorem holds_later (locals : ∀ binding ∈ env, s.bindings.IsLocal binding) (later : Later s t) :
    t.bindings.Holds env :=
  fun binding member => ((later KeepsLocals).locals binding (locals binding member)).1.1

end Proceeding

section Calls

/-- A call of a built-in function that the name means is compiled in line. -/
theorem compile_inlined {p : Primitive} (ready : Ready s context.env)
    (means : s.bindings.meaning? context.env (.ofSymbol id) .functions =
      some { reference := .slot })
    (named : Primitive.ofSymbol? id = some p) (accepts : p.arity.accepts args.length = true)
    (notSpecial : SpecialForm.ofSymbol? id = none) (notLambda : id ≠ SymbolId.lambda)
    (notNil : id ≠ SymbolId.nil) (spine : s.image.heap.Spine form (.symbol id :: args) .nil)
    (ok : compileWithin (depth + 1) context form s = .ok code t) :
    ∃ s₁ codes, GoesOn context.env s s₁ ∧ Later s s₁ ∧
      (Sparing (· = "values") s → Sparing (· = "values") s₁) ∧
      compileArgs (compileWithin depth) context args s₁ = .ok codes t ∧
      code = inlineCall p codes context.acceptor := by
  obtain ⟨a, rfl, -, head, rest⟩ := spine.ofCons
  have taken : restItems? (.cons a) s = .ok (some args) s :=
    congrArg (EStateM.Result.ok · s) rest.listItems?
  change compileCompound (compileWithin depth) context (.cons a) (s.image.heap.cell a).car s = _
    at ok
  rw [head, compileCompound, bind_ended taken] at ok
  change compileNamed (compileWithin depth) context (.cons a) id args s = _ at ok
  obtain ⟨binding, bindings, resolved, gains, has, -, -, meant⟩ :=
    Bindings.resolve_ofSymbol ready.placed ready.holds id
      (.inr rfl : Namespace.functions = .vars ∨ _)
  have meaning : bindings.meaning binding = { reference := .slot } :=
    Option.some.inj (meant.symm.trans means)
  have found : Compiler.resolve context (.symbol id) .functions s =
      .ok (some binding) { s with bindings } := by
    rw [Value.ofSymbol, if_neg notNil] at resolved
    unfold Compiler.resolve onBindings
    dsimp only
    rw [resolved]
  rw [compileNamed, if_neg notLambda, notSpecial] at ok
  dsimp only at ok
  rw [bind_ended found] at ok
  dsimp only at ok
  have marked : markUsed binding { s with bindings } =
      .ok () { s with bindings := bindings.markUsed binding } := rfl
  rw [bind_ended marked, show binding.reference = .slot from congrArg Meaning.reference meaning] at ok
  dsimp only at ok
  have still := (Bindings.OnlyGains.markUsed bindings binding).meaning binding has
  have inline_ : ((bindings.markUsed binding).declared binding).notInline = false :=
    congrArg Meaning.notInline (still.trans meaning)
  have asked : inlinable? binding id args.length { s with bindings := bindings.markUsed binding } =
      .ok (some p) { s with bindings := bindings.markUsed binding } := by
    unfold inlinable?
    change (if ((bindings.markUsed binding).declared binding).notInline then _ else _ :
      Compile (Option Primitive)) _ = _
    rw [inline_, named]
    change EStateM.Result.ok ((some p).filter (·.arity.accepts args.length)) _ = _
    rw [Option.filter, if_pos accepts]
  rw [bind_ended asked] at ok
  dsimp only at ok
  obtain ⟨codes, _, compiled, ended⟩ := ok_of_bind ok
  cases ended
  have goes := ready.withBindings gains
  refine ⟨_, codes, goes.trans (goes.ready.withBindings (.markUsed bindings binding)), fun R _ => ?_,
    fun sparing => ?_, compiled, rfl⟩
  · exact Interning.trans ((Obeys.resolve _ _ _).ended found) ((Obeys.markUsed _).ended marked)
  · exact (Sparing.after (.markUsed _) (Sparing.after (.resolve _ _ _) sparing found).2 marked).2

/-- A variable that was made for a sublist is compiled to the script variable that it means. -/
theorem compile_newVariable {count : Nat} {host : String} (placed : s.bindings.Placed)
    (holds : s.bindings.Holds context.env) (isHost : IsHost s context.env id host)
    (isNew : IsNew count s.image.symbols id) (enough : SymbolId.apply.index < count)
    (ok : compileWithin depth context (.ofSymbol id) s = .ok code t) :
    (∃ bindings, s.bindings.OnlyGains bindings ∧ t = { s with bindings }) ∧ code = .ident host := by
  have large := Nat.lt_of_lt_of_le enough isNew.new
  have notT : id ≠ SymbolId.t := by
    rintro rfl
    exact absurd large (by decide)
  have notNil : id ≠ SymbolId.nil := by
    rintro rfl
    exact absurd large (by decide)
  have notKeyword : s.image.symbols.isKeyword id = false := by
    rw [SymbolTable.isKeyword, isNew.uninterned]
    rfl
  cases depth with
  | zero => cases ok
  | succ depth =>
      rw [Value.ofSymbol, if_neg notNil] at ok
      exact compileSymbol_host placed holds isHost notT notNil notKeyword ok

theorem isForm_of_spine {heap : Heap} {special : SpecialForm}
    (spine : heap.Spine form (.symbol special.symbol :: args) .nil) :
    IsForm heap special args form := by
  obtain ⟨a, rfl, -, head, rest⟩ := spine.ofCons
  exact ⟨a, rfl, head, rest.listItems?⟩

variable {list lambda : Value} {forms : List Value} {name : SymbolId}

theorem compile_function
    (isFunction : s.image.heap.Spine form [.symbol SymbolId.function, lambda] .nil)
    (ok : compileWithin (depth + 1) context form s = .ok code t) :
    functionReference (compileWithin depth) context lambda s = .ok code t := by
  have isForm : IsForm s.image.heap .function [lambda] form := isForm_of_spine isFunction
  rw [compileWithin_special isForm] at ok
  exact ok

theorem functionReference_cons {a : Nat} {items : List Value} {head : SymbolId}
    (isHead : (s.image.heap.cell a).car = .symbol head)
    (isLambda : head = SymbolId.lambda ∨ head = SymbolId.namedLambda)
    (read : s.image.heap.listItems? (.cons a) = some items)
    (ok : functionReference (compileWithin depth) context (.cons a) s = .ok code t) :
    (if items.head?.bind Value.asSymbol? = some SymbolId.namedLambda then
      match items.tail.head?.bind Value.asSymbol? with
      | some name =>
          compileLambdaParts (compileWithin depth) context (.cons a) (some name) (items.drop 2)
      | none => malformed (.cons a) "NAMED-LAMBDA needs a symbol name"
    else compileLambdaParts (compileWithin depth) context (.cons a) none (items.drop 1)) s =
      .ok code t := by
  have car_eq : carOf? (.cons a) s = .ok (some (.symbol head)) s :=
    congrArg (fun car => EStateM.Result.ok (some car) s) isHead
  have asked : isLambdaExpression (.cons a) s = .ok true s := by
    rw [isLambdaExpression, bind_ended car_eq]
    rcases isLambda with rfl | rfl <;> rfl
  rw [functionReference, bind_ended asked, if_pos rfl, compileLambdaExpression] at ok
  have heap_eq : Compiler.heap s = .ok s.image.heap s := rfl
  rw [bind_ended heap_eq, read] at ok
  exact ok

/-- A lambda expression. -/
theorem functionReference_lambda
    (isLambda : s.image.heap.Spine lambda (.symbol SymbolId.lambda :: list :: forms) .nil)
    (ok : functionReference (compileWithin depth) context lambda s = .ok code t) :
    compileLambda (compileWithin depth) context list forms none s = .ok code t := by
  obtain ⟨a, rfl, -, head, -⟩ := isLambda.ofCons
  exact functionReference_cons head (.inl rfl) isLambda.listItems? ok

/-- A lambda expression with a name. -/
theorem functionReference_named
    (isLambda : s.image.heap.Spine lambda
      (.symbol SymbolId.namedLambda :: .ofSymbol name :: list :: forms) .nil)
    (ok : functionReference (compileWithin depth) context lambda s = .ok code t) :
    compileLambda (compileWithin depth) context list forms (some name) s = .ok code t := by
  obtain ⟨a, rfl, -, head, -⟩ := isLambda.ofCons
  have ok := functionReference_cons head (.inr rfl) isLambda.listItems? ok
  simp only [List.head?_cons, List.tail_cons, Option.bind_some, Value.asSymbol?_ofSymbol] at ok
  exact ok

end Calls

section Bodies

variable {stmts : List Stmt} {inner : Value}

/-- A list that starts with the name of a function or special form, and so is no declaration. -/
def IsPlainForm (heap : Heap) (form : Value) : Prop :=
  ∃ a id, form = .cons a ∧ (heap.cell a).car = .symbol id ∧ id ≠ SymbolId.declare

theorem parseBody_single {docstring : Bool} (plain : IsPlainForm s.image.heap form) :
    parseBody [form] docstring s = .ok { forms := [form] } s := by
  obtain ⟨a, id, rfl, head, other⟩ := plain
  have car_eq : carOf? (.cons a) s = .ok (some (.symbol id)) s :=
    congrArg (fun car => EStateM.Result.ok (some car) s) head
  have asked : isDeclaration (.cons a) s = .ok false s := by
    rw [isDeclaration, bind_ended car_eq]
    change EStateM.Result.ok (some id == some SymbolId.declare) s = _
    rw [beq_eq_false_iff_ne.mpr (by simpa using other)]
  rw [parseBody, parseBodyFrom, bind_ended asked]
  · rfl
  · rintro _ _ ⟨⟩

theorem compileBody_single {compile : FormCompiler}
    (ok : compileBody compile context [form] s = .ok stmts t) :
    ∃ code, compile context form s = .ok code t ∧ stmts = [.ret code] := by
  unfold compileBody at ok
  obtain ⟨effects, s₁, none_, ok⟩ := ok_of_bind ok
  cases none_
  obtain ⟨code, s₂, compiled, ended⟩ := ok_of_bind ok
  cases ended
  exact ⟨code, compiled, rfl⟩

theorem IsSpread.plain {heap : Heap} {list : Value} {forms : List Value} {param : SymbolId}
    (isSpread : IsSpread heap list forms param form) : IsPlainForm heap form := by
  obtain ⟨_, _, form_, -, -⟩ := isSpread
  obtain ⟨a, rfl, -, head, -⟩ := form_.ofCons
  exact ⟨a, _, rfl, head, by decide⟩

theorem BindsWhole.plain {heap : Heap} {param : SymbolId} {whole : Option SymbolId}
    (bindsWhole : BindsWhole heap param inner whole form) (plain : IsPlainForm heap inner) :
    IsPlainForm heap form := by
  cases bindsWhole with
  | none => exact plain
  | some form_ _ _ =>
      obtain ⟨a, rfl, -, head, -⟩ := form_.ofCons
      exact ⟨a, _, rfl, head, by decide⟩

/-- What a `LET` that binds a variable to the value of another is compiled to. -/
structure BindsCopy (depth : Nat) (context : Context) (var : SymbolId) (host : String)
    (inner : Value) (s : CompileState) (code : Expr) (t : CompileState) (copy : String)
    (env : Environment) (u : CompileState) (codeInner : Expr) : Prop where
  widens : Widens [var] s u context.env env
  isHost : IsHost u env var copy
  made : Made s.counters u.counters copy
  spares : Sparing (· = "values") s → Apart (· = "values") context.env →
    Sparing (· = "values") u ∧ Apart (· = "values") env
  compiled : compileWithin depth (context.withEnv env) inner u = .ok codeInner t
  code_eq : code = .wrap [.define copy (.ident host), .ret codeInner]

theorem parseBindings_one {bindings binding init : Value} {var : SymbolId} {pairs : List (SymbolId × Value)}
    (list : s.image.heap.Spine bindings [binding] .nil)
    (pair : s.image.heap.Spine binding [.ofSymbol var, init] .nil)
    (ok : parseBindings form context bindings s = .ok pairs t) :
    checkBindable context var s = .ok () t ∧ pairs = [(var, init)] := by
  unfold parseBindings listArg at ok
  have heap_eq : Compiler.heap s = .ok s.image.heap s := rfl
  rw [bind_assoc, bind_ended heap_eq, list.listItems?] at ok
  dsimp only at ok
  rw [pure_bind, List.mapM_cons] at ok
  obtain ⟨_, s₁, first, ok⟩ := ok_of_bind ok
  obtain ⟨_, _, ⟨⟩, ended⟩ := ok_of_bind ok
  cases ended
  obtain ⟨a, rfl, -, -, -⟩ := pair.ofCons
  have parsed : parseBinding form (.cons a) s = .ok (var, init) s := by
    rw [parseBinding, listArg, bind_assoc, bind_ended heap_eq, pair.listItems?]
    simp only [pure_bind, symbolArg, Value.asSymbol?_ofSymbol]
    rfl
  rw [bind_ended parsed] at first
  obtain ⟨_, s₂, checked, ended⟩ := ok_of_bind first
  cases ended
  exact ⟨checked, rfl⟩

theorem compile_bindsWhole {param var : SymbolId} {host : String} {count : Nat}
    (bindsWhole : BindsWhole s.image.heap param inner (some var) form)
    (plain : IsPlainForm s.image.heap inner) (ready : Ready s context.env)
    (isHost : IsHost s context.env param host) (isNew : IsNew count s.image.symbols param)
    (enough : SymbolId.apply.index < count) (lexical : IsLexical [] s var)
    (ok : compileWithin (depth + 1) context form s = .ok code t) :
    ∃ copy env u codeInner, BindsCopy depth context var host inner s code t copy env u codeInner := by
  cases bindsWhole with
  | @some _ _ bindings _ form_ bindings_ binding_ =>
      have isForm : IsForm s.image.heap .bind [bindings, inner] form := isForm_of_spine form_
      rw [compileWithin_special isForm] at ok
      change compileLet (compileWithin depth) context form _ s = _ at ok
      unfold compileLet at ok
      obtain ⟨_, _, ⟨⟩, ok⟩ := ok_of_bind ok
      obtain ⟨pairs, s₁, parsed, ok⟩ := ok_of_bind ok
      obtain ⟨checked, rfl⟩ := parseBindings_one bindings_ binding_ parsed
      obtain ⟨goes₁, -⟩ := checkBindable_ok ready checked
      have bodyRead : parseBody [inner] false s₁ = .ok { forms := [inner] } s₁ :=
        parseBody_single (goes₁.onward.image ▸ plain)
      rw [List.tail_cons, bind_ended bodyRead] at ok
      obtain ⟨⟨prologue, hosts⟩, s₂, defined, ok⟩ := ok_of_bind ok
      obtain ⟨head, s₃, bound, finished⟩ := ok_of_bind ok
      unfold defineInits at defined
      obtain ⟨copy, s₄, fresh, defined⟩ := ok_of_bind defined
      obtain ⟨value, s₅, copied, ended⟩ := ok_of_bind defined
      cases ended
      obtain ⟨goes₂, made⟩ := freshVariableFor_ok goes₁.ready fresh
      have until₂ := goes₁.trans goes₂
      have isHost₂ := ((until₂.binds ready).isHost List.not_mem_nil).mpr isHost
      have holds : s₄.bindings.Holds context.single.env := goes₂.ready.holds
      obtain ⟨⟨bindings, gains, same⟩, rfl⟩ := compile_newVariable goes₂.ready.placed holds
        isHost₂ (until₂.onward.image ▸ isNew) enough copied
      have goes₃ : GoesOn context.env s₄ s₂ := same ▸ goes₂.ready.withBindings gains
      have bound : (bindParameter [] { env := context.env, prologue := _ } var copy >>= pure) s₂ =
          .ok head s₃ := bound
      rw [bind_pure] at bound
      have until₃ := until₂.trans goes₃
      obtain ⟨prologue_eq, binds, isHost'⟩ := bindParameter_ok goes₃.ready
        (lexical.later ready until₃.onward)
        (made.left goes₃.onward.counters).ever bound
      have applied : applyFreeDeclarations head.env {} [var] s₃ = .ok head.env s₃ := rfl
      change (applyFreeDeclarations head.env {} [var] >>= _) s₃ = _ at finished
      rw [bind_ended applied] at finished
      obtain ⟨stmts, s₇, compiled, ended⟩ := ok_of_bind finished
      cases ended
      obtain ⟨codeInner, inside, rfl⟩ := compileBody_single compiled
      have later : Later s s₃ := by
        intro R _
        have h₁ : R s s₁ := (checkBindable_obeys _ _).ended checked
        have h₂ : R s₁ s₄ := (Obeys.freshVariableFor _).ended fresh
        have h₃ : R s₄ s₂ := (compileWithin_obeys _ _ _).ended copied
        have h₄ : R s₂ s₃ := (bindParameter_obeys _ _ _ _).ended bound
        exact Interning.trans (Interning.trans (Interning.trans h₁ h₂) h₃) h₄
      refine ⟨copy, head.env, s₃, codeInner, ((until₃.binds ready).trans binds).widens later, isHost',
        ?_, fun sparing apart => ?_, inside, ?_⟩
      · exact made.mono goes₁.onward.counters (goes₃.onward.counters.trans binds.onward.counters)
      · have sparing₁ := (Sparing.after (checkBindable_spares var) sparing checked).2
        have sparing₄ := (Sparing.after (.freshVariableFor var) sparing₁ fresh).2
        have sparing₂ := (Sparing.after (compileSingle_spares (compileWithin_spares _) apart _)
          sparing₄ copied).2
        have new : copy ≠ "values" := fun same => made.unreserved (same ▸ by decide)
        have defines : Free (· = "values") (Stmt.assignedAll [.define copy (.ident host)]) := by
          simp [Stmt.assignedAll, Stmt.assigned, Expr.assigned]
        have clear : Head.Spares (· = "values") ⟨context.env, _⟩ :=
          ⟨apart, Prologue.Spares.empty.add defines⟩
        have spares := bindParameter_spares clear [] var new
        exact ⟨(Sparing.after spares sparing₂ bound).2, (spares.held sparing₂ bound).env⟩
      · rw [prologue_eq]
        rfl

end Bodies

end LispScript.Compiler
