import LispScript.Proofs.Rereading
import LispScript.Proofs.Sublists

/-!
Where the body of a lambda expression is compiled: behind the parameters, in an environment in which
these have script variables.
-/

namespace LispScript.Compiler

open Script Machine Discipline

variable {s t last : CompileState} {env env' : Environment} {context : Context} {depth : Nat}
  {made : LiteralKey → Value} {i : Image} {c : Nat}

section Situations

/-- Forms can be compiled in an environment, in the course of a unit. -/
structure Situated (s : CompileState) (env : Environment) : Prop where
  ready : Ready s env
  sparing : Sparing (· = "values") s
  apart : Apart (· = "values") env
  locals : ∀ binding ∈ env, s.bindings.IsLocal binding
  tabled : ∃ entries, Tabled s entries

theorem Situated.tabledLater (situated : Situated s env) (later : Later s t) :
    ∃ entries, Tabled t entries := by
  obtain ⟨entries, tabled⟩ := situated.tabled
  obtain ⟨-, more, tabled⟩ := (later KeepsLiterals).tabled entries tabled
  exact ⟨_, tabled⟩

/-- Forms can be compiled further in as well. -/
theorem Widens.situated {bound : List SymbolId} (widens : Widens bound s t env env')
    (situated : Situated s env) (sparing : Sparing (· = "values") t) (apart : Apart (· = "values") env') :
    Situated t env' where
  ready := widens.ready
  sparing := sparing
  apart := apart
  locals := widens.locals situated.locals
  tabled := situated.tabledLater widens.proceeds.later

/-- The literals of the unit, as far as there are some. -/
theorem Situated.literals (situated : Situated s env) (later : Later s last)
    (holds : HoldsLiterals last made i c) : HoldsLiterals s made i c := by
  obtain ⟨entries, tabled⟩ := situated.tabled
  obtain ⟨-, more, tabled'⟩ := (later KeepsLiterals).tabled entries tabled
  refine ⟨fun key name named => holds.held key name ?_, holds.symbol, holds.character⟩
  obtain ⟨entry, member, is⟩ := (tabled.names key name).mp named
  exact (tabled'.names key name).mpr ⟨entry, List.mem_append_left _ member, is⟩

theorem MakesConses.widens (makes : MakesConses s t) (later : Later s t) (ready : Ready s env) :
    Widens [] s t env env := by
  obtain ⟨heap, rfl, keeps, held⟩ := makes
  exact ⟨⟨.refl _, .refl _, keeps, .refl _, later⟩, ready.makesConses ⟨heap, rfl, keeps, held⟩,
    fun _ _ => rfl, fun _ => rfl, id⟩

theorem bodyForms_spares {spared : String → Prop} (name : Option SymbolId) (forms : List Value) :
    Plain spared (bodyForms name forms) := by
  cases name with
  | none => exact .pure trivial
  | some name =>
      exact .bind (.newList _) fun _ _ => .bind (.newListWithTail _ _) fun _ _ => .pure trivial

theorem bodyForms_obeys {R : CompileState → CompileState → Prop} [Gradual R] (name : Option SymbolId)
    (forms : List Value) : Obeys R (bodyForms name forms) := by
  cases name with
  | none => exact .pure _
  | some name => exact .bind (.newList _) fun _ => .bind (.newListWithTail _ _) fun _ => .pure _

end Situations

section Entries

/-- A lambda expression is compiled: its lambda list and its body have been read, its parameters are
bound between two states, and behind them the forms of its body are compiled. -/
structure LambdaEntry (depth : Nat) (context : Context) (list : LambdaList) (parsed : Body)
    (name : Option SymbolId) (s : CompileState) (code : Expr) (t : CompileState) where
  head : Head
  hosts : List String
  forms : List Value
  checked : CompileState
  start : CompileState
  bound : CompileState
  env : Environment
  body : CompileState
  stmts : List Stmt
  last : CompileState
  holder : String
  properties : List (String × String)
  formed : bodyForms name parsed.forms checked = .ok forms start
  binds : ParametersBound list start bound context.env head hosts
  begins : Widens [] s start context.env context.env
  widens : Widens list.boundVars start bound context.env head.env
  situated : Situated bound head.env
  applied : applyFreeDeclarations head.env parsed.declarations list.boundVars bound = .ok env body
  compiled : compileBody (compileWithin depth) { env, manyValues := true } forms body =
    .ok stmts last
  later : Later last t
  unreserved : holder ∉ reservedNames
  code_eq : code = functionCode holder hosts (head.prologue.finish stmts) properties
  free : "values" ∉ Stmt.assignedAll (head.prologue.finish stmts)

variable {lambdaList : Value} {body items : List Value} {name : Option SymbolId} {code : Expr}

theorem free_of_functionCode {spared : String → Prop} {holder : String} {hosts : List String}
    {stmts : List Stmt} {properties : List (String × String)}
    (free : Free spared (functionCode holder hosts stmts properties).assigned) :
    Free spared (Stmt.assignedAll stmts) := by
  unfold functionCode at free
  split at free
  · simpa [Expr.assigned] using free
  · simp only [propertiesCode, Expr.inPlace, Expr.assigned, Expr.assignedAll, free_append] at free
    exact free.2.1

/-- A lambda expression that is compiled was read, and its parameters were bound. -/
theorem compileLambda_enters (situated : Situated s context.env)
    (spine : s.image.heap.Spine lambdaList items .nil)
    (ok : compileLambda (compileWithin depth) context lambdaList body name s = .ok code t) :
    ∃ list last parsed r r', IsLambdaList s.image.heap True s.image.symbols items list last ∧
      parseBody body true r = .ok parsed r' ∧ r.image.heap = s.image.heap ∧
      (list.boundVars.Nodup → (∀ id ∈ list.boundVars, IsLexical parsed.declarations.specials s id) →
        (∀ form ∈ list.defaults, IsConstantForm s.image.symbols form) →
        Nonempty (LambdaEntry depth context list parsed name s code t)) := by
  have free := (compileLambda_spares (compileWithin_spares depth) situated.apart lambdaList body
    name).held situated.sparing ok
  obtain ⟨list, s₁, parsed, s₂, read, bodyRead, s₃, forms, s₄, head, hosts, s₅, env, u, stmts, s₆,
    holder, properties, checked, formed, bindsAll, applied, compiled, unreserved, code_eq, later, -⟩ :=
    compileLambda_steps ok
  obtain ⟨last, isList⟩ := parseLambdaList_spine spine read
  have interns₁ : Interns s s₁ := (parseLambdaList_obeys lambdaList).ended read
  have interns₂ : Interns s₁ s₂ := (parseBody_obeys body true).ended bodyRead
  have later₂ : Later s s₂ := fun R _ => Interning.trans ((parseLambdaList_obeys lambdaList).ended read)
    ((parseBody_obeys body true).ended bodyRead)
  have isolated : Isolated s s₂ := Interning.trans ((parseLambdaList_obeys lambdaList).ended read)
    ((parseBody_obeys body true).ended bodyRead)
  have heap_eq : s₁.image.heap = s.image.heap := by
    obtain ⟨_, rfl⟩ := interns₁
    rfl
  refine ⟨list, last, parsed, s₁, s₂, isList, bodyRead, heap_eq, fun distinct lexical constant => ?_⟩
  have interns := Interning.trans interns₁ interns₂
  have ready₂ := situated.ready.interns interns
  have widens₂ := interns.widens isolated later₂ situated.ready
  obtain ⟨goes, notNil⟩ := checkBindables_ok ready₂ checked
  have makes := bodyForms_ok formed
  have later₃ : Later s₂ s₃ := fun R _ =>
    (Obeys.forM _ fun id => checkBindable_obeys _ id).ended checked
  have later₄ : Later s₃ s₄ := fun R _ => (bodyForms_obeys name parsed.forms).ended formed
  have begins := (widens₂.trans ((goes.binds ready₂).widens later₃)).trans
    (makes.widens later₄ goes.ready)
  have constant₄ : ∀ form ∈ list.defaults, IsConstantForm s₄.image.symbols form := fun form member =>
    (constant form member).gains begins.proceeds.symbols
  have bound := bindParameters_ok begins.ready
    (fun id member => (((lexical id member).interns interns).later ready₂ goes.onward).makesConses makes)
    notNil distinct (hasSimpleDefaults_of_constant constant₄)
    (parseLambdaList_keyed lambdaList s list s₁ read) bindsAll
  have later₅ : Later s₄ s₅ := fun R _ =>
    (bindParameters_obeys (compileWithin_obeys depth) _ _ list).ended bindsAll
  have sparing₄ : Sparing (· = "values") s₄ := by
    have first := (Sparing.after (parseLambdaList_spares lambdaList) situated.sparing read).2
    have second := (Sparing.after (parseBody_spares body true) first bodyRead).2
    have third := (Sparing.after (.forM _ fun _ => checkBindable_spares _) second checked).2
    exact (Sparing.after (bodyForms_spares name parsed.forms) third formed).2
  have situated₄ : Situated s₄ context.env := begins.situated situated sparing₄ situated.apart
  have spares : Spares (· = "values")
      (bindParameters (compileWithin depth) context parsed.declarations.specials list) _ :=
    bindParameters_spares (compileWithin_spares depth) situated.apart list
  have fresh := spares.held sparing₄ bindsAll
  have binds := bound.binds.widens later₅
  refine ⟨⟨head, hosts, forms, s₃, s₄, s₅, env, u, stmts, s₆, holder, properties, formed, bound, ?_,
    binds, binds.situated situated₄ (Sparing.after spares sparing₄ bindsAll).2 fresh.1.env, applied,
    compiled, later, unreserved, code_eq, ?_⟩⟩
  · simpa using begins
  · subst code_eq
    exact fun member => free_of_functionCode free _ member rfl

end Entries

end LispScript.Compiler
