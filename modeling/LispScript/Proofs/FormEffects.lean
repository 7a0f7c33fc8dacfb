import LispScript.Proofs.PartEffects

/-!
What compiling a form does to the state. All but a few forms obey the relations that hold for what
only adds; those few define or declare things, or run programs, while they are compiled, and obey
the relations that hold for these changes too.
-/

namespace LispScript.Compiler

open Script

variable {α : Type} {R : CompileState → CompileState → Prop} [Gradual R]

section Assignments

theorem compileQuote_obeys (form : Value) (args : List Value) :
    Obeys R (compileQuote form args) :=
  .bind (.expectArgs _ _ _ _) fun _ => literal_obeys _

variable {compile : FormCompiler} (forms : ∀ context form, Obeys R (compile context form))
  (context : Context) (form : Value)

include forms

theorem compileFunction_obeys (args : List Value) :
    Obeys R (compileFunction compile context form args) :=
  .bind (.expectArgs _ _ _ _) fun _ => functionReference_obeys forms _ _

theorem compileIf_obeys (args : List Value) : Obeys R (compileIf compile context form args) := by
  refine .bind (.expectArgs _ _ _ _) fun _ => ?_
  split
  · refine .bind (compileSingle_obeys forms _) fun test => .bind (forms _ _) fun yes => ?_
    split
    · exact .bind (forms _ _) fun _ => .pure _
    · exact .pure _
  · exact .pure _

theorem compileAssignments_obeys (args : List Value) :
    Obeys R (compileAssignments compile context form args) := by
  match args with
  | [] => exact .pure _
  | [_] => exact .pure _
  | target :: value :: rest =>
      rw [compileAssignments]
      refine .bind (.symbolArg _ _ _) fun id => .bind (variablePlace_obeys _ _) fun place => ?_
      refine .bind (compileSingle_obeys forms _) fun code => ?_
      exact .bind (compileAssignments_obeys rest) fun _ => .pure _

theorem compileSetq_obeys (args : List Value) :
    Obeys R (compileSetq compile context form args) := by
  unfold compileSetq
  split
  case' isTrue => refine .bind (.malformed _ _) fun _ => ?_
  all_goals
    refine .bind (compileAssignments_obeys forms _ _ _) fun codes => ?_
    split
    all_goals exact .pure _

theorem compileThe_obeys (args : List Value) : Obeys R (compileThe compile context form args) := by
  refine .bind (.expectArgs _ _ _ _) fun _ => ?_
  split
  · exact forms _ _
  · exact .pure _

end Assignments

section Binders

variable (form : Value)

theorem parseBinding_obeys (spec : Value) : Obeys R (parseBinding form spec) := by
  unfold parseBinding
  split
  · exact .bind (.symbolArg _ _ _) fun _ => .pure _
  · exact .bind (.symbolArg _ _ _) fun _ => .pure _
  · refine .bind (.listArg _ _ _) fun items => ?_
    split
    · exact .bind (.symbolArg _ _ _) fun _ => .pure _
    · exact .bind (.symbolArg _ _ _) fun _ => .pure _
    · exact .malformed _ _
  · exact .malformed _ _

theorem parseBindings_obeys (context : Context) (list : Value) :
    Obeys R (parseBindings form context list) :=
  .bind (.listArg _ _ _) fun _ => .mapM _ fun _ => .bind (parseBinding_obeys _ _) fun _ =>
    .bind (checkBindable_obeys _ _) fun _ => .pure _

theorem parseDefinition_obeys (definition : Value) :
    Obeys R (parseDefinition form definition) := by
  refine .bind (.listArg _ _ _) fun parts => ?_
  split
  · exact .bind (.symbolArg _ _ _) fun _ => .pure _
  · exact .malformed _ _

theorem parseDefinitions_obeys (list : Value) : Obeys R (parseDefinitions form list) :=
  .bind (.listArg _ _ _) fun _ => .mapM _ fun _ => parseDefinition_obeys _ _

theorem bindHosts_obeys (specials : List SymbolId) (head : Head)
    (hosts : List (SymbolId × String)) : Obeys R (bindHosts specials head hosts) := by
  induction hosts generalizing head with
  | nil => exact .pure _
  | cons host rest ih =>
      rw [bindHosts]
      exact .bind (bindParameter_obeys _ _ _ _) ih

theorem bindFunctions_obeys (env : Environment) (hosts : List (LocalDefinition × String)) :
    Obeys R (bindFunctions env hosts) :=
  .foldlM _ _ fun _ _ => .bind (.newBinding _ _ _) fun _ => .pure _

variable {compile : FormCompiler} (forms : ∀ context form, Obeys R (compile context form))
  (context : Context)

include forms

theorem finishBinding_obeys (prologue : Prologue) (env : Environment) (body : Body)
    (bound : List SymbolId) :
    Obeys R (finishBinding compile context prologue env body bound) :=
  .bind (applyFreeDeclarations_obeys _ _ _) fun _ =>
    .bind (compileBody_obeys forms _ _) fun _ => .pure _

theorem defineInits_obeys (prologue : Prologue) (inits : List (SymbolId × Value)) :
    Obeys R (defineInits compile context prologue inits) := by
  induction inits generalizing prologue with
  | nil => exact .pure _
  | cons init rest ih =>
      rw [defineInits]
      refine .bind (.freshVariableFor _) fun host => .bind (compileSingle_obeys forms _) fun _ => ?_
      exact .bind (ih _) fun _ => .pure _

theorem bindInits_obeys (specials : List SymbolId) (head : Head)
    (inits : List (SymbolId × Value)) :
    Obeys R (bindInits compile context specials head inits) := by
  induction inits generalizing head with
  | nil => exact .pure _
  | cons init rest ih =>
      rw [bindInits]
      refine .bind (.freshVariableFor _) fun host => .bind (compileSingle_obeys forms _) fun _ => ?_
      exact .bind (bindParameter_obeys _ _ _ _) ih

theorem compileLet_obeys (args : List Value) : Obeys R (compileLet compile context form args) := by
  refine .bind (.expectArgs _ _ _ _) fun _ => .bind (parseBindings_obeys _ _ _) fun bindings => ?_
  refine .bind (parseBody_obeys _ _) fun body => .bind (defineInits_obeys forms _ _ _) fun _ => ?_
  exact .bind (bindHosts_obeys _ _ _) fun _ => finishBinding_obeys forms _ _ _ _ _

theorem compileLetStar_obeys (args : List Value) :
    Obeys R (compileLetStar compile context form args) := by
  refine .bind (.expectArgs _ _ _ _) fun _ => .bind (parseBindings_obeys _ _ _) fun bindings => ?_
  refine .bind (parseBody_obeys _ _) fun body => .bind (bindInits_obeys forms _ _ _ _) fun _ => ?_
  exact finishBinding_obeys forms _ _ _ _ _

theorem compileLocalFunctions_obeys (recursive : Bool) (args : List Value) :
    Obeys R (compileLocalFunctions compile context recursive form args) := by
  refine .bind (.expectArgs _ _ _ _) fun _ => .bind (parseDefinitions_obeys _ _) fun _ => ?_
  refine .bind (parseBody_obeys _ _) fun body => ?_
  refine .bind (.mapM _ fun _ => .bind (.freshVariableFor _) fun _ => .pure _) fun hosts => ?_
  refine .bind (bindFunctions_obeys _ _) fun inner => ?_
  refine .bind (.mapM _ fun _ => .bind (compileLambda_obeys forms _ _ _ _) fun _ => .pure _) ?_
  exact fun _ => finishBinding_obeys forms _ _ _ _ _

theorem compileLocally_obeys (items : List Value) :
    Obeys R (compileLocally compile context items) :=
  .bind (parseBody_obeys _ _) fun _ => .bind (applyFreeDeclarations_obeys _ _ _) fun _ =>
    compileProgn_obeys forms _ _

end Binders

section ManyValues

variable {compile : FormCompiler} (forms : ∀ context form, Obeys R (compile context form))
  (context : Context) (form : Value)

include forms

theorem appendBundles_obeys (arguments : Expr) (items : List Value) :
    Obeys R (appendBundles compile context arguments items) := by
  induction items generalizing arguments with
  | nil => exact .pure _
  | cons item rest ih =>
      rw [appendBundles]
      exact .bind (compileBundle_obeys forms _) fun _ => ih _

theorem compileMultipleValueCall_obeys (args : List Value) :
    Obeys R (compileMultipleValueCall compile context form args) :=
  .bind (.expectArgs _ _ _ _) fun _ => .bind (compileSingle_obeys forms _) fun _ =>
    .bind (appendBundles_obeys forms _ _ _) fun _ => .pure _

theorem compileMultipleValueProg1_obeys (args : List Value) :
    Obeys R (compileMultipleValueProg1 compile context form args) := by
  refine .bind (.expectArgs _ _ _ _) fun _ => .bind (forms _ _) fun first => ?_
  split
  · exact .pure _
  · exact .bind (.onCounters _ fun _ => rfl) fun _ => .bind (compileEffects_obeys forms _ _) fun _ => .pure _

end ManyValues

section Exits

variable (form : Value)

theorem blockName_obeys (name : Value) : Obeys R (blockName form name) := by
  unfold blockName
  split
  · exact .pure _
  · exact .malformed _ _

theorem isTag_obeys (item : Value) : Obeys R (isTag form item) := by
  unfold isTag
  split
  · exact .pure _
  · exact .pure _
  · exact .pure _
  · exact .pure _
  · exact .bind (.describe _) fun _ => .malformed _ _

theorem bindTags_obeys (token : String) (tags : List Value) : Obeys R (bindTags token tags) := by
  induction tags with
  | nil => exact .pure _
  | cons tag rest ih =>
      rw [bindTags]
      refine .bind (.onCounters _ fun _ => rfl) fun label => .bind (.newBinding _ _ _) fun binding => ?_
      exact .bind ih fun _ => .pure _

theorem compileGo_obeys (context : Context) (args : List Value) :
    Obeys R (compileGo context form args) := by
  unfold compileGo
  split
  · split
    · exact .bind (.describe _) fun _ => .throw _
    · refine .bind (.markUsed _) fun _ => ?_
      split
      · exact .bind (.describe _) fun _ => .pure _
      · exact .bind (.describe _) fun _ => .throw _
  · exact .malformed _ _

variable {compile : FormCompiler} (forms : ∀ context form, Obeys R (compile context form))
  (context : Context)

include forms

theorem compileBlock_obeys (args : List Value) :
    Obeys R (compileBlock compile context form args) := by
  unfold compileBlock
  split
  · exact .malformed _ _
  · refine .bind (blockName_obeys _ _) fun name => .bind (.onCounters _ fun _ => rfl) fun token => ?_
    refine .bind (.newBinding _ _ _) fun binding => ?_
    refine .bind (compileBody_obeys forms _ _) fun stmts => .bind (.declared _) fun found => ?_
    split
    · exact .pure _
    · exact .pure _

theorem compileReturnFrom_obeys (args : List Value) :
    Obeys R (compileReturnFrom compile context form args) := by
  unfold compileReturnFrom
  split
  case' isTrue => refine .bind (.malformed _ _) fun _ => ?_
  all_goals
    refine .bind (blockName_obeys _ _) fun name => ?_
    split
    · exact .bind (.symbolName _) fun _ => .throw _
    · refine .bind (.markUsed _) fun _ => ?_
      split
      · dsimp only
        split
        · exact .bind (compileBundle_obeys forms _) fun _ => .bind (.symbolName _) fun _ => .pure _
        · exact .bind (compileSingle_obeys forms _) fun _ => .bind (.symbolName _) fun _ => .pure _
      · exact .bind (.symbolName _) fun _ => .throw _

theorem compileCatch_obeys (args : List Value) :
    Obeys R (compileCatch compile context form args) := by
  unfold compileCatch
  split
  · exact .malformed _ _
  · refine .bind (.onCounters _ fun _ => rfl) fun host => .bind (compileSingle_obeys forms _) fun tag => ?_
    exact .bind (compileBody_obeys forms _ _) fun _ => .pure _

theorem compileThrow_obeys (args : List Value) :
    Obeys R (compileThrow compile context form args) := by
  unfold compileThrow
  split
  · refine .bind (.onCounters _ fun _ => rfl) fun host => .bind (compileSingle_obeys forms _) fun tag => ?_
    exact .bind (compileBundle_obeys forms _) fun _ => .pure _
  · exact .malformed _ _

omit form in
theorem compileTagged_obeys (leading : List Value) (segments : List (Value × List Value)) :
    Obeys R (compileTagged compile context leading segments) := by
  unfold compileTagged
  refine .bind (.onCounters _ fun _ => rfl) fun names => ?_
  obtain ⟨token, loopLabel⟩ := names
  dsimp only
  have finish (sections : List (List Value)) (start : List Nat) : Obeys R (do
      let tags ← bindTags token (segments.map Prod.fst)
      let inner := context.withEnv ((tags.map Prod.snd).reverse ++ context.env)
      let labels := start ++ tags.map Prod.fst
      let bodies ← sections.mapM fun forms => do
        return (← compileArgs compile inner forms).map Stmt.effect
      let isUsed ← tags.anyM fun tag => do return (← declared tag.2).used
      if !isUsed then return statementsExpr (bodies.flatten ++ [.ret .nil])
      let branch ← freshVariable "branch"
      let cases := (labels.zip bodies).map fun item => Case.case (labelExpr item.1) item.2
      let turn := intercept [.select (.ident branch) cases, .leave (some loopLabel)]
        .tagbody (.ident token) [.effect (.assign (.ident branch) signalPayload)]
      return .wrap [.define token (.array []), .define branch (labelExpr (labels.headD 0)),
        .loop (some loopLabel) (.bool true) [turn], .ret .nil]) := by
    refine .bind (bindTags_obeys _ _) fun tags => ?_
    refine .bind (.mapM _ fun _ => .bind (compileArgs_obeys forms _) fun _ => .pure _) fun _ => ?_
    refine .bind (.anyM _ fun _ => .bind (.declared _) fun _ => .pure _) fun used => ?_
    split
    · exact .pure _
    · exact .bind (.onCounters _ fun _ => rfl) fun _ => .pure _
  split
  · exact .bind (.pure _) fun _ => finish _ _
  · exact .bind (.onCounters _ fun _ => rfl) fun _ => .bind (.pure _) fun _ => finish _ _

theorem compileTagbody_obeys (args : List Value) :
    Obeys R (compileTagbody compile context form args) := by
  refine .bind (.mapM _ fun _ => .bind (isTag_obeys _ _) fun _ => .pure _) fun items => ?_
  split
  · exact compileProgn_obeys forms _ _
  · exact compileTagged_obeys forms _ _ _

theorem compileUnwindProtect_obeys (args : List Value) :
    Obeys R (compileUnwindProtect compile context form args) := by
  unfold compileUnwindProtect
  split
  · exact .malformed _ _
  · refine .bind (forms _ _) fun value => ?_
    split
    · exact .pure _
    · exact .bind (compileEffects_obeys forms _ _) fun _ => .pure _

end Exits

section Units

variable {compile : FormCompiler} (forms : ∀ context form, Obeys R (compile context form))

theorem inFreshUnit_obeys {step : Compile α} (obeys : Obeys R step) :
    Obeys R (inFreshUnit step) := by
  intro s
  have inside := obeys { s with literals := {} }
  rw [stateAfter] at inside
  unfold stateAfter inFreshUnit
  dsimp only
  cases ended : step { s with literals := {} } with
  | ok a later =>
      rw [ended] at inside
      exact Gradual.unit inside
  | error e later =>
      rw [ended] at inside
      exact Gradual.unit inside

include forms in
theorem compileToplevel_obeys (form : Value) : Obeys R (compileToplevel compile form) :=
  .bind (.onCounters _ fun _ => rfl) fun _ => .bind (inFreshUnit_obeys (forms _ _)) fun _ => .pure _

end Units

section Passive

/-- Whether a special form defines or declares something for other forms, or runs a program, while
it is compiled. -/
def acts : SpecialForm → Bool
  | .declaim | .macroDefinition | .constantDefinition | .evalWhen | .macrolet => true
  | _ => false

/-- Whether a form, where it stands, is a special form that acts while it is compiled or the call of
a macro. -/
def actsAt (s : CompileState) (context : Context) : Value → Bool
  | .cons address =>
      match (s.image.heap.cell address).car with
      | .symbol id =>
          if id = SymbolId.lambda then false
          else match SpecialForm.ofSymbol? id with
            | some special => acts special
            | none =>
                match (s.bindings.resolve context.env (.symbol id) .functions).1 with
                | some { reference := .expander _, .. } => true
                | _ => false
      | _ => false
  | _ => false

variable {compile : FormCompiler} (forms : ∀ context form, Obeys R (compile context form))
  (context : Context)

section Special

variable (form : Value)

include forms

theorem compileSpecial_obeys {special : SpecialForm} (passive : acts special = false)
    (args : List Value) : Obeys R (compileSpecial compile context special form args) := by
  cases special with
  | quote => exact compileQuote_obeys _ _
  | function => exact compileFunction_obeys forms _ _ _
  | conditional => exact compileIf_obeys forms _ _ _
  | progn => exact compileProgn_obeys forms _ _
  | setq => exact compileSetq_obeys forms _ _ _
  | bind => exact compileLet_obeys _ forms _ _
  | bindInOrder => exact compileLetStar_obeys _ forms _ _
  | flet => exact compileLocalFunctions_obeys _ forms _ _ _
  | labels => exact compileLocalFunctions_obeys _ forms _ _ _
  | locally => exact compileLocally_obeys forms _ _
  | typed => exact compileThe_obeys forms _ _ _
  | macrolet => cases passive
  | evalWhen => cases passive
  | declaim => cases passive
  | macroDefinition => cases passive
  | constantDefinition => cases passive
  | backquote =>
      exact .bind (.expectArgs _ _ _ _) fun _ => .bind (expandBackquote_obeys _) fun _ => forms _ _
  | unquote => exact .bind (.describe _) fun _ => .throw _
  | unquoteSplicing => exact .bind (.describe _) fun _ => .throw _
  | multipleValueCall => exact compileMultipleValueCall_obeys forms _ _ _
  | multipleValueProg1 => exact compileMultipleValueProg1_obeys forms _ _ _
  | block => exact compileBlock_obeys _ forms _ _
  | returnFrom => exact compileReturnFrom_obeys _ forms _ _
  | catching => exact compileCatch_obeys _ forms _ _
  | throwing => exact compileThrow_obeys _ forms _ _
  | tagbody => exact compileTagbody_obeys _ forms _ _
  | go => exact compileGo_obeys _ _ _
  | unwindProtect => exact compileUnwindProtect_obeys _ forms _ _

end Special

theorem inlinable?_obeys (binding : Binding) (id : SymbolId) (count : Nat) :
    Obeys R (inlinable? binding id count) := by
  refine .bind (.declared _) fun found => ?_
  split
  · exact .pure _
  · exact .pure _

include forms

/-- A call by name, unless the name means a macro. -/
theorem callNamed_obeys (form : Value) (id : SymbolId) (args : List Value) {binding : Binding}
    (plain : ∀ function, binding.reference ≠ .expander function) :
    Obeys R (do
      markUsed binding
      match binding.reference with
      | .expander function => do compile context (← callExpander id function form)
      | .host name => compileCall compile context (.ident name) args
      | .slot =>
          match ← inlinable? binding id args.length with
          | some p => return inlineCall p (← compileArgs compile context args) context.acceptor
          | none => do compileCall compile context (← globalFunction id) args
      | _ => throw (.illegalCall (← describe form))) := by
  refine .bind (.markUsed _) fun _ => ?_
  split
  · rename_i function same
    exact absurd same (plain function)
  · exact compileCall_obeys forms _ _
  · refine .bind (inlinable?_obeys _ _ _) fun p? => ?_
    split
    · exact .bind (compileArgs_obeys forms _) fun _ => .pure _
    · exact .bind (globalFunction_obeys _) fun _ => compileCall_obeys forms _ _
  · exact .bind (.describe _) fun _ => .throw _

theorem compileNamed_obeys {s : CompileState} {address : Address} {id : SymbolId}
    (head : (s.image.heap.cell address).car = .symbol id)
    (passive : actsAt s context (.cons address) = false) (args : List Value) :
    R s (stateAfter (compileNamed compile context (.cons address) id args) s) := by
  simp only [actsAt, head] at passive
  unfold compileNamed
  by_cases isLambda : id = SymbolId.lambda
  · rw [if_pos isLambda]
    exact functionReference_obeys forms _ _ s
  · rw [if_neg isLambda] at passive ⊢
    cases special? : SpecialForm.ofSymbol? id with
    | some special =>
        rw [special?] at passive
        exact compileSpecial_obeys forms _ _ passive _ s
    | none =>
        rw [special?] at passive
        dsimp only at passive ⊢
        have resolved : Compiler.resolve context (.symbol id) .functions s =
            .ok (s.bindings.resolve context.env (.symbol id) .functions).1
              { s with bindings := (s.bindings.resolve context.env (.symbol id) .functions).2 } :=
          rfl
        have before : R s { s with
            bindings := (s.bindings.resolve context.env (.symbol id) .functions).2 } :=
          Obeys.resolve context (.symbol id) .functions s
        refine stateAfter_bind resolved ▸ Interning.trans before ?_
        revert passive
        cases (s.bindings.resolve context.env (.symbol id) .functions).1 with
        | none => exact fun _ => Obeys.bind (.describe _) (fun _ => .throw _) _
        | some binding =>
            intro passive
            refine callNamed_obeys forms _ _ id args (fun function same => ?_) _
            obtain ⟨name, space, reference, declarations⟩ := binding
            cases same
            cases passive

/-- A form that does not act itself obeys what its parts obey. -/
theorem compileStep_obeys {s : CompileState} {form : Value}
    (passive : actsAt s context form = false) :
    R s (stateAfter (compileStep compile context form) s) := by
  cases form with
  | symbol id => exact compileSymbol_obeys _ _ s
  | cons address =>
      change R s (stateAfter (compileCompound compile context (.cons address)
        (s.image.heap.cell address).car) s)
      unfold compileCompound
      have taken : restItems? (.cons address) s =
          .ok (s.image.heap.listItems? (s.image.heap.cell address).cdr) s := rfl
      rw [stateAfter_bind taken]
      cases s.image.heap.listItems? (s.image.heap.cell address).cdr with
      | none => exact Obeys.malformed _ _ s
      | some args =>
          cases head : (s.image.heap.cell address).car with
          | symbol id => exact compileNamed_obeys forms _ head passive args
          | _ =>
              refine Obeys.bind (isLambdaExpression_obeys _) (fun found => ?_) s
              split
              · exact .bind (functionReference_obeys forms _ _) fun _ => compileCall_obeys forms _ _
              · exact .bind (.describe _) fun _ => .throw _
  | _ => exact literal_obeys _ s

end Passive

/-- A relation that holds for every change that compiling can make. -/
class Unrestricted (R : CompileState → CompileState → Prop) : Prop extends Gradual R where
  image : ∀ s image, Machine.Reaches s.image image → R s { s with image }
  expander : ∀ s id function, R s { s with bindings :=
    (s.bindings.define id .functions (.expander function)).2 }
  proclaim : ∀ s id space (f : Declarations → Declarations),
    (∀ d, d.special = true → (f d).special = true) → (∀ d, (f d).used = d.used) → R s { s with
      bindings := (s.bindings.lookupGlobal id space).2.updateDeclared
        (s.bindings.lookupGlobal id space).1 f }
  constant : ∀ s id value, R s { s with
    bindings := (s.bindings.define id .vars (.constant value)).2.setConstant
      (s.bindings.define id .vars (.constant value)).1 true }

/-- The compiler has come to a later state, whatever forms it has compiled. -/
def Later (s t : CompileState) : Prop :=
  ∀ (R : CompileState → CompileState → Prop) [Unrestricted R], R s t

theorem Later.refl (s : CompileState) : Later s s := fun _ _ => Interning.refl s

theorem Later.trans {s t u : CompileState} (first : Later s t) (second : Later t u) : Later s u :=
  fun R _ => Interning.trans (first R) (second R)

section Acting

variable {R : CompileState → CompileState → Prop} [Unrestricted R]

theorem onMachine_obeys {run : Run α} (reaches : Machine.Relates Machine.Reaches run)
    (explain : RuntimeError → CompileError) : Obeys R (onMachine run explain) := by
  intro s
  have reached := reaches s.image
  unfold stateAfter onMachine
  cases ended : run s.image with
  | ok a image =>
      rw [ended] at reached
      exact Unrestricted.image s _ reached
  | error interrupt image =>
      rw [ended] at reached
      exact Unrestricted.image s _ reached

theorem gensym_obeys (stem : String) : Obeys R (onSymbols (·.gensym stem)) :=
  fun s => Unrestricted.image s _ fun _ persistent =>
    persistent.elementary (.gensym stem) s.image

section Destructuring

theorem sortItems_obeys (list : Value) (isFirst required : Bool) (sorted : MacroItems)
    (items : List Value) : Obeys R (sortItems list isFirst required sorted items) := by
  induction n : items.length using Nat.strongRecOn
    generalizing isFirst required sorted items with
  | ind n ih =>
    subst n
    cases items with
    | nil => exact .pure _
    | cons item rest =>
        have onward isFirst required sorted :
            Obeys R (sortItems list isFirst required sorted rest) :=
          ih rest.length (by simp) isFirst required sorted rest rfl
        have further value more (parts : rest = value :: more) isFirst required sorted :
            Obeys R (sortItems list isFirst required sorted more) := by
          subst parts
          exact ih more.length (by simp only [List.length_cons]; omega) isFirst required sorted
            more rfl
        unfold sortItems
        split
        · split
          · split
            · exact badLambdaList_obeys _ _
            · split
              · exact badLambdaList_obeys _ _
              · split
                · exact further _ _ rfl _ _ _
                · exact badLambdaList_obeys _ _
          · split
            · split
              · exact badLambdaList_obeys _ _
              · split
                · exact further _ _ rfl _ _ _
                · exact badLambdaList_obeys _ _
            · exact onward _ _ _
        · split
          · exact .bind (gensym_obeys _) fun _ => onward _ _ _
          · exact onward _ _ _

theorem tailItems_obeys (list tail : Value) : Obeys R (tailItems list tail) := by
  unfold tailItems
  split
  · exact .pure _
  · exact .pure _
  · exact badLambdaList_obeys _ _

theorem letForm_obeys (var : SymbolId) (value : Value) (body : List Value) :
    Obeys R (letForm var value body) :=
  .bind (.newList _) fun _ => .bind (.newList _) fun _ => .bind (.newList _) fun _ =>
    .newListWithTail _ _

theorem spreadBody_obeys (param : SymbolId) (lowered : Lowered) :
    Obeys R (spreadBody param lowered) := by
  have spread : Obeys R (spreadForm lowered param) :=
    .bind (.newList _) fun _ => .bind (.newListWithTail _ _) fun _ =>
      .bind (.newList _) fun _ => .newList _
  refine .bind spread fun form => ?_
  split
  · exact .bind (letForm_obeys _ _ _) fun _ => .pure _
  · exact .pure _

theorem lowerWithin_obeys (depth : Nat) (list : Value) (body : List Value) :
    Obeys R (lowerWithin depth list body) := by
  induction depth generalizing list body with
  | zero => exact .throw _
  | succ depth ih =>
      rw [lowerWithin]
      refine .bind .heap fun heap => .bind (sortItems_obeys _ _ _ _ _) fun sorted => ?_
      refine .bind (tailItems_obeys _ _) fun tail => ?_
      have rest (body : List Value) : Obeys R (do
          let body ← sorted.destructured.foldrM (fun item body => do
            spreadBody item.1 (← lowerWithin depth item.2 body)) body
          return (⟨← newList (sorted.flat ++ tail), body, sorted.whole⟩ : Lowered)) :=
        .bind (.foldrM _ _ fun _ _ => .bind (ih _ _) fun _ => spreadBody_obeys _ _) fun _ =>
          .bind (.newList _) fun _ => .pure _
      dsimp only
      split
      · exact .bind (letForm_obeys _ _ _) fun _ => rest _
      · exact rest _

end Destructuring

theorem callExpander_obeys (name : SymbolId) (expander form : Value) :
    Obeys R (callExpander name expander form) := by
  refine .bind (.restItems? _) fun args? => ?_
  split
  · exact .malformed _ _
  · exact .bind (.symbolName _) fun _ => onMachine_obeys (Machine.reaches_call _ _) _

theorem orFail_obeys {step failure : Compile α} (first : Obeys R step) (second : Obeys R failure) :
    Obeys R (orFail step failure) := by
  intro s
  have before := first s
  have after later := second later
  unfold stateAfter at before after ⊢
  unfold orFail
  cases ended : step s with
  | ok a later =>
      rw [ended] at before
      exact before
  | error e later =>
      rw [ended] at before
      exact Interning.trans before (after later)

theorem proclaim_obeys (specs : DeclSpecs) : Obeys R (proclaim specs) := by
  have change (space : Namespace) (id : SymbolId) (f : Declarations → Declarations)
      (kept : ∀ d, d.special = true → (f d).special = true) (marks : ∀ d, (f d).used = d.used) :
      Obeys R (do
        let binding ← onBindings (·.lookupGlobal id space)
        modifyBindings (·.updateDeclared binding f)) :=
    fun s => Unrestricted.proclaim s id space f kept marks
  refine .bind (.forM _ fun id => change _ id _ (fun _ _ => rfl) fun _ => rfl) fun _ => ?_
  refine .bind (.forM _ fun id => change _ id _ (fun _ special => special) fun _ => rfl) fun _ => ?_
  exact .forM _ fun id => change _ id _ (fun _ special => special) fun _ => rfl

theorem compileDeclaim_obeys (form : Value) (args : List Value) :
    Obeys R (compileDeclaim form args) := by
  refine .bind (.newList _) fun list => .bind (.newCons _ _) fun declaration => ?_
  refine .bind (orFail_obeys (parseDeclaration_obeys _ _) (.malformed _ _)) fun specs => ?_
  exact .bind (proclaim_obeys _) fun _ => .pure _

variable {compile : FormCompiler} (forms : ∀ context form, Obeys R (compile context form))
  (context : Context) (form : Value)

include forms

omit form in
theorem evalNow_obeys (form : Value) : Obeys R (evalNow compile form) :=
  .bind (compileToplevel_obeys forms _) fun _ => .bind (onMachine_obeys (Machine.reaches_run _) _) fun _ =>
    .bind .get fun _ => .pure _

omit form in
theorem makeExpander_obeys (name : SymbolId) (lambdaList : Value) (body : List Value) :
    Obeys R (makeExpander compile name lambdaList body) := by
  refine .bind (.bind .heap fun _ => lowerWithin_obeys _ _ _) fun lowered => ?_
  dsimp only
  split
  case' h_1 => refine .bind (.pure _) fun _ => ?_
  case' h_2 => refine .bind (gensym_obeys _) fun _ => ?_
  all_goals
    refine .bind (.newCons _ _) fun list => .bind (.newList _) fun items => ?_
    refine .bind (.newListWithTail _ _) fun lambda => .bind (.newList _) fun function => ?_
    refine .bind (evalNow_obeys forms _) fun value => ?_
    split
    · exact .pure _
    · exact .bind (.describe _) fun _ => .bind (.symbolName _) fun _ => .throw _

theorem compileDefmacro_obeys (args : List Value) :
    Obeys R ( compileDefmacro compile form args) := by
  refine .bind (.expectArgs _ _ _ _) fun _ => ?_
  split
  · refine .bind (.symbolArg _ _ _) fun id => .bind (makeExpander_obeys forms _ _ _) fun _ => ?_
    exact .bind (fun s => Unrestricted.expander s _ _) fun _ => .symbolLiteral _
  · exact .pure _

theorem compileDefconstant_obeys (args : List Value) :
    Obeys R (compileDefconstant compile form args) := by
  refine .bind (.expectArgs _ _ _ _) fun _ => ?_
  split
  · rename_i init _
    refine .bind (.symbolArg _ _ _) fun id => .bind .symbols fun symbols => ?_
    have defined (value : Value) : Obeys R (do
        let binding ← onBindings (·.define id .vars (.constant value))
        modifyBindings (·.setConstant binding true)) :=
      fun s => Unrestricted.constant s id value
    have finish : Obeys R (do
        let value ← evalNow compile init
        let written ← literal value
        let binding ← onBindings (·.define id .vars (.constant value))
        modifyBindings (·.setConstant binding true)
        let cell ← symbolLiteral id
        return Expr.comma [.assign (.member cell "value") written, cell]) := by
      refine .bind (evalNow_obeys forms _) fun value => .bind (literal_obeys _) fun _ => ?_
      rw [← bind_assoc]
      exact .bind (defined value) fun _ => .bind (.symbolLiteral _) fun _ => .pure _
    dsimp only
    split
    · exact .bind (.symbolName id) fun _ => .bind (.throw _) fun _ => finish
    · exact finish
  · exact .pure _

theorem compileEvalWhen_obeys (args : List Value) :
    Obeys R (compileEvalWhen compile context form args) := by
  refine .bind (.expectArgs _ _ _ _) fun _ => .bind (.listArg _ _ _) fun situations => ?_
  refine .bind (.newList _) fun items => .bind (.newCons _ _) fun body => ?_
  have finish (later : Bool) :
      Obeys R (if later then compile context body else Pure.pure .nil) := by
    split
    · exact forms _ _
    · exact .pure _
  dsimp only
  split
  · exact .bind (evalNow_obeys forms _) fun _ => finish _
  · exact finish _

theorem bindMacros_obeys (env : Environment) (definitions : List LocalDefinition) :
    Obeys R (bindMacros compile env definitions) := by
  induction definitions generalizing env with
  | nil => exact .pure _
  | cons definition rest ih =>
      rw [bindMacros]
      refine .bind (makeExpander_obeys forms _ _ _) fun expander => ?_
      exact .bind (.newBinding _ _ _) fun _ => ih _

theorem compileMacrolet_obeys (args : List Value) :
    Obeys R (compileMacrolet compile context form args) :=
  .bind (.expectArgs _ _ _ _) fun _ => .bind (parseDefinitions_obeys _ _) fun _ =>
    .bind (bindMacros_obeys forms _ _) fun _ => compileLocally_obeys forms _ _

theorem compileActing_obeys {special : SpecialForm} (acting : acts special = true)
    (args : List Value) : Obeys R (compileSpecial compile context special form args) := by
  cases special
  case macrolet => exact compileMacrolet_obeys forms _ _ _
  case evalWhen => exact compileEvalWhen_obeys forms _ _ _
  case declaim => exact compileDeclaim_obeys _ _
  case macroDefinition => exact compileDefmacro_obeys forms _ _
  case constantDefinition => exact compileDefconstant_obeys forms _ _
  all_goals cases acting

theorem compileNamed_obeys_always (id : SymbolId) (args : List Value) :
    Obeys R (compileNamed compile context form id args) := by
  unfold compileNamed
  split
  · exact functionReference_obeys forms _ _
  · split
    · rename_i special _
      cases acting : acts special with
      | true => exact compileActing_obeys forms _ _ acting _
      | false => exact compileSpecial_obeys forms _ _ acting _
    · refine .bind (.resolve _ _ _) fun binding? => ?_
      split
      · exact .bind (.describe _) fun _ => .throw _
      · rename_i binding
        by_cases expander : ∃ function, binding.reference = .expander function
        · obtain ⟨function, reference⟩ := expander
          refine .bind (.markUsed _) fun _ => ?_
          rw [reference]
          exact .bind (callExpander_obeys _ _ _) fun _ => forms _ _
        · exact callNamed_obeys forms _ _ _ _ fun function same => expander ⟨function, same⟩

omit form in
theorem compileStep_obeys_always (form : Value) : Obeys R (compileStep compile context form) := by
  cases form with
  | symbol id => exact compileSymbol_obeys _ _
  | cons address =>
      refine .bind .heap fun heap => .bind (.restItems? _) fun args? => ?_
      split
      · exact .malformed _ _
      · split
        · exact compileNamed_obeys_always forms _ _ _ _
        · refine .bind (isLambdaExpression_obeys _) fun found => ?_
          split
          · exact .bind (functionReference_obeys forms _ _) fun _ => compileCall_obeys forms _ _
          · exact .bind (.describe _) fun _ => .throw _
  | _ => exact literal_obeys _

end Acting

/-- What holds for every change that compiling can make holds for the compiling of every form. -/
theorem compileWithin_obeys {R : CompileState → CompileState → Prop} [Unrestricted R] (depth : Nat)
    (context : Context) (form : Value) : Obeys R (compileWithin depth context form) := by
  induction depth generalizing context form with
  | zero => exact .throw _
  | succ depth ih => exact compileStep_obeys_always ih _ _

section Marks

variable {s t : CompileState} {binding : Binding}

theorem Bindings.used_updateDeclared (bindings : Bindings) (changed binding : Binding)
    (f : Declarations → Declarations) (marks : ∀ d, d.used = true → (f d).used = true)
    (used : (bindings.declared binding).used = true) :
    ((bindings.updateDeclared changed f).declared binding).used = true := by
  rw [declared, Array.getD_eq_getD_getElem?] at used
  rw [declared, updateDeclared, Array.getD_eq_getD_getElem?, Array.getElem?_modify]
  cases found : bindings.declarations[binding.declarations]? with
  | none =>
      rw [found] at used
      cases used
  | some declarations =>
      rw [found] at used
      split
      · exact marks _ used
      · exact used

/-- What was marked as used stays so, and new bindings take no other's place. -/
structure KeepsMarks (s later : CompileState) : Prop where
  declarations : s.bindings.declarations.size ≤ later.bindings.declarations.size
  used : ∀ binding, (s.bindings.declared binding).used = true →
    (later.bindings.declared binding).used = true

theorem KeepsMarks.same (same : t.bindings = s.bindings) : KeepsMarks s t := by
  constructor
  · rw [same]
  · exact fun _ used => same ▸ used

theorem KeepsMarks.trans {u : CompileState} (first : KeepsMarks s t) (second : KeepsMarks t u) :
    KeepsMarks s u :=
  ⟨Nat.le_trans first.declarations second.declarations,
    fun binding used => second.used binding (first.used binding used)⟩

theorem KeepsMarks.push {bindings : Bindings} (declarations : Declarations)
    (pushed : bindings.declarations = s.bindings.declarations.push declarations) :
    KeepsMarks s { s with bindings } := by
  refine ⟨by simp [pushed], fun binding used => ?_⟩
  rw [Bindings.declared, Array.getD_eq_getD_getElem?] at used
  rw [Bindings.declared, pushed, Array.getD_eq_getD_getElem?]
  cases found : s.bindings.declarations[binding.declarations]? with
  | none =>
      rw [found] at used
      cases used
  | some known =>
      rw [found] at used
      obtain ⟨bound, -⟩ := Array.getElem?_eq_some_iff.mp found
      rwa [Array.getElem?_push_lt bound, ← Array.getElem?_eq_getElem bound, found]

theorem KeepsMarks.lookupGlobal (s : CompileState) (id : SymbolId) (space : Namespace) :
    KeepsMarks s { s with bindings := (s.bindings.lookupGlobal id space).2 } := by
  unfold Bindings.lookupGlobal
  split
  · exact .same rfl
  · exact .push {} rfl

theorem KeepsMarks.update (s : CompileState) (binding : Binding) (f : Declarations → Declarations)
    (marks : ∀ d, d.used = true → (f d).used = true) :
    KeepsMarks s { s with bindings := s.bindings.updateDeclared binding f } :=
  ⟨by simp [Bindings.updateDeclared], fun other used =>
    s.bindings.used_updateDeclared binding other f marks used⟩

theorem KeepsMarks.define (s : CompileState) (id : SymbolId) (space : Namespace)
    (reference : Reference) :
    KeepsMarks s { s with bindings := (s.bindings.define id space reference).2 } :=
  .push _ rfl

instance : Additive KeepsMarks where
  refl _ := .same rfl
  trans := .trans
  keyword _ _ := .same rfl
  counters _ _ := .same rfl
  literals _ _ := .same rfl
  cells _ _ := .same rfl
  bind _ _ _ _ declarations := .push declarations rfl
  used s binding := .update s binding _ fun _ _ => rfl
  global := .lookupGlobal

instance : Unrestricted KeepsMarks where
  image _ _ _ := .same rfl
  expander s id _ := .define s id _ _
  proclaim s id space f _ marks := (KeepsMarks.lookupGlobal s id space).trans
    (.update _ _ f fun d used => (marks d).trans used)
  constant s id _ := (KeepsMarks.define s id _ _).trans (.update _ _ _ fun _ used => used)

/-- Marking shows. -/
theorem markUsed_used (known : binding.declarations < s.bindings.declarations.size)
    (marked : markUsed binding s = .ok () t) : (t.bindings.declared binding).used = true := by
  cases marked
  change ((s.bindings.declarations.modify _ _).getD _ _).used = true
  rw [Array.getD_eq_getD_getElem?, Array.getElem?_modify, if_pos rfl,
    Array.getElem?_eq_getElem known]
  rfl

end Marks

end LispScript.Compiler
