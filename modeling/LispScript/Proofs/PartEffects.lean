import LispScript.Proofs.Effects

/-!
The parts that forms are compiled from - literals, variables, bodies, lambda expressions,
templates - obey every relation that holds for what only adds.
-/

namespace LispScript.Compiler

open Script

variable {α : Type} {R : CompileState → CompileState → Prop}

section Variables

variable [Gradual R]

/-- Declarations that are changed at once might as well have been made so. -/
theorem updateDeclared_bindWith (bindings : Bindings) (name : Value) (space : Namespace)
    (reference : Reference) (declarations : Declarations) (f : Declarations → Declarations) :
    (bindings.bindWith name space reference declarations).2.updateDeclared
        (bindings.bindWith name space reference declarations).1 f =
      (bindings.bindWith name space reference (f declarations)).2 := by
  have modified : (bindings.declarations.push declarations).modify bindings.declarations.size f =
      bindings.declarations.push (f declarations) := by
    apply Array.ext
    · simp
    · intro i first second
      simp only [Array.getElem_modify, Array.getElem_push]
      split
      · rename_i same
        subst same
        simp
      · rename_i other
        have inside : i < bindings.declarations.size := by
          simp only [Array.size_push] at second
          omega
        rw [dif_pos inside, dif_pos inside]
  exact congrArg (fun declarations => { bindings with declarations }) modified

variable (context : Context)

theorem isConstantSymbol_obeys (id : SymbolId) : Obeys R (isConstantSymbol context id) := by
  refine .bind .symbols fun symbols => ?_
  split
  · exact .pure _
  · refine .bind (.resolve _ _ _) fun binding? => ?_
    split
    · exact .bind (.declared _) fun _ => .pure _
    · exact .pure _

theorem checkBindable_obeys (id : SymbolId) : Obeys R (checkBindable context id) := by
  refine .bind (isConstantSymbol_obeys _ _) fun constant => ?_
  split
  · exact .bind (.symbolName _) fun _ => .throw _
  · exact .pure _

theorem bindsSpecial_obeys (id : SymbolId) (specials : List SymbolId) :
    Obeys R (bindsSpecial id specials) := by
  unfold bindsSpecial
  split
  · exact .pure _
  · refine .bind .get fun s => ?_
    dsimp only
    split
    · exact .pure _
    · exact .pure _

/-- A new binding that is declared special is a binding with that declaration. -/
theorem variableBinding_obeys (id : SymbolId) (host : String) (special : Bool) :
    Obeys R (variableBinding id host special) := by
  cases special with
  | false => exact .newBinding _ _ _
  | true =>
      intro s
      have after : stateAfter (variableBinding id host true) s = { s with bindings :=
          (s.bindings.bindWith (.ofSymbol id) .vars .slot { special := true }).2 } :=
        congrArg (fun bindings => { s with bindings })
          (updateDeclared_bindWith s.bindings (.ofSymbol id) .vars .slot {} _)
      rw [after]
      exact Gradual.bind s _ _ _ _

theorem hostVariable?_obeys (binding : Binding) : Obeys R (hostVariable? binding) := by
  unfold hostVariable?
  split
  · exact .bind (.declared _) fun _ => .pure _
  · exact .pure _

theorem compileSymbol_obeys (id : SymbolId) : Obeys R (compileSymbol context id) := by
  refine .bind .symbols fun symbols => ?_
  split
  · exact .symbolLiteral _
  · refine .bind (.resolve _ _ _) fun binding? => ?_
    split
    · exact .bind (.describe _) fun _ => .throw _
    · refine .bind (.markUsed _) fun _ => ?_
      split
      · exact literal_obeys _
      · refine .bind (hostVariable?_obeys _) fun name? => ?_
        split
        · exact .pure _
        · exact .bind (.symbolLiteral _) fun _ => .pure _

theorem variablePlace_obeys (id : SymbolId) : Obeys R (variablePlace context id) := by
  refine .bind (isConstantSymbol_obeys _ _) fun constant => ?_
  split
  · exact .bind (.symbolName _) fun _ => .throw _
  · refine .bind (.resolve _ _ _) fun binding? => ?_
    split
    · exact .bind (.describe _) fun _ => .throw _
    · refine .bind (.markUsed _) fun _ => .bind (hostVariable?_obeys _) fun name? => ?_
      split
      · exact .pure _
      · exact .bind (.symbolLiteral _) fun _ => .pure _

end Variables

section Declarations

variable [Interning R]

theorem isDeclaration_obeys (form : Value) : Obeys R (isDeclaration form) :=
  .bind (.carOf? form) fun _ => .pure _

theorem addDeclared_obeys (form : Value) (kind : SymbolId) (specs : DeclSpecs)
    (names : List Value) : Obeys R (addDeclared form kind specs names) := by
  induction names generalizing specs with
  | nil => exact .pure _
  | cons name rest ih =>
      rw [addDeclared]
      split
      · exact ih _
      · exact .malformed _ _

theorem addSpecifiers_obeys (form : Value) (specs : DeclSpecs) (specifiers : List Value) :
    Obeys R (addSpecifiers form specs specifiers) := by
  induction specifiers generalizing specs with
  | nil => exact .pure _
  | cons specifier rest ih =>
      rw [addSpecifiers]
      refine .bind .heap fun heap => ?_
      split
      · exact .malformed _ _
      · exact ih _
      · split
        · split
          · exact .bind (addDeclared_obeys _ _ _ _) fun specs => ih specs
          · exact ih _
        · exact ih _

theorem parseDeclaration_obeys (form : Value) (specs : DeclSpecs) :
    Obeys R (parseDeclaration form specs) := by
  refine .bind (.restItems? form) fun items? => ?_
  split
  · exact addSpecifiers_obeys _ _ _
  · exact .malformed _ _

theorem parseBodyFrom_obeys (body : Body) (allowDocstring : Bool) (forms : List Value) :
    Obeys R (parseBodyFrom body allowDocstring forms) := by
  induction forms generalizing body with
  | nil => exact .pure _
  | cons form rest ih =>
      have others (other : Value) : Obeys R (do
          if ← isDeclaration other then
            let declarations ← parseDeclaration other body.declarations
            parseBodyFrom { body with declarations } allowDocstring rest
          else return { body with forms := other :: rest }) := by
        refine .bind (isDeclaration_obeys other) fun found => ?_
        split
        · exact .bind (parseDeclaration_obeys _ _) fun _ => ih _
        · exact .pure _
      unfold parseBodyFrom
      split
      · split
        · exact ih _
        · exact .pure _
      · exact others form

theorem parseBody_obeys (forms : List Value) (allowDocstring : Bool) :
    Obeys R (parseBody forms allowDocstring) :=
  parseBodyFrom_obeys _ _ _

end Declarations

section Bodies

variable [Gradual R]

/-- A shadow whose declarations are changed is a binding with the changed declarations. -/
theorem redeclare_obeys (env : Environment) (id : SymbolId) (space : Namespace)
    {alter : Binding → Bindings → Bindings} {f : Declarations → Declarations}
    (alters : ∀ binding bindings, alter binding bindings = bindings.updateDeclared binding f) :
    Obeys R (redeclare env id space alter) := by
  refine .bind (.resolve _ _ _) fun binding? => ?_
  split
  · exact .pure _
  · rename_i current
    intro s
    let declarations := f { s.bindings.declared current with used := false }
    have after : stateAfter (do
        let shadow ← onBindings (·.shadow current)
        modifyBindings (alter shadow)
        return shadow :: env) s = { s with bindings :=
          (s.bindings.bindWith current.name current.space current.reference declarations).2 } := by
      let shadowed := s.bindings.shadow current
      change { s with bindings := alter shadowed.1 shadowed.2 } = _
      rw [alters]
      exact congrArg (fun bindings => { s with bindings }) (updateDeclared_bindWith _ _ _ _ _ f)
    rw [after]
    exact Gradual.bind s _ _ _ _

theorem applyFreeDeclarations_obeys (env : Environment) (specs : DeclSpecs)
    (bound : List SymbolId) : Obeys R (applyFreeDeclarations env specs bound) := by
  unfold applyFreeDeclarations
  dsimp only
  refine .bind (.foldlM _ _ fun _ _ => redeclare_obeys _ _ _ fun _ _ => rfl) fun env => ?_
  refine .bind (.foldlM _ _ fun _ _ => redeclare_obeys _ _ _ fun _ _ => rfl) fun env => ?_
  exact .foldlM _ _ fun _ _ => redeclare_obeys _ _ _ fun _ _ => rfl

variable {compile : FormCompiler} (forms : ∀ context form, Obeys R (compile context form))
  (context : Context)

include forms

theorem compileEffects_obeys (items : List Value) :
    Obeys R (compileEffects compile context items) :=
  .bind (.mapM _ fun _ => forms _ _) fun _ => .pure _

theorem compileBody_obeys (items : List Value) : Obeys R (compileBody compile context items) := by
  unfold compileBody
  split
  · exact .pure _
  · exact .bind (compileEffects_obeys forms _ _) fun _ => .bind (forms _ _) fun _ => .pure _

theorem compileProgn_obeys (items : List Value) : Obeys R (compileProgn compile context items) := by
  unfold compileProgn
  split
  · exact .pure _
  · exact .bind (compileEffects_obeys forms _ _) fun _ => .bind (forms _ _) fun _ => .pure _

end Bodies

section Prologues

variable [Gradual R]

theorem bindSpecial_obeys (prologue : Prologue) (id : SymbolId) (value : Expr) :
    Obeys R (prologue.bindSpecial id value) :=
  .bind (.symbolLiteral id) fun _ => .bind (.onCounters _ fun _ => rfl) fun _ => .pure _

theorem bindParameter_obeys (specials : List SymbolId) (head : Head) (var : SymbolId)
    (host : String) : Obeys R (bindParameter specials head var host) := by
  refine .bind (bindsSpecial_obeys _ _) fun special => ?_
  have bound (prologue : Prologue) : Obeys R (do
      let binding ← variableBinding var host special
      return ({ env := binding :: head.env, prologue } : Head)) :=
    .bind (variableBinding_obeys _ _ _) fun _ => .pure _
  dsimp only
  split
  · exact .bind (bindSpecial_obeys _ _ _) bound
  · exact bound _

end Prologues

section LambdaLists

variable [Interning R]

theorem keyNames?_obeys (head : Value) : Obeys R (keyNames? head) := by
  unfold keyNames?
  split
  · refine .bind .heap fun heap => ?_
    split
    · exact .pure _
    · exact .pure _
  · split
    · refine .bind (.symbolName _) fun name => .bind (fun s => Interning.keyword s name) ?_
      exact fun _ => .pure _
    · exact .pure _

theorem keyParam?_obeys (item : Value) : Obeys R (keyParam? item) := by
  refine .bind (.carOf? item) fun head? => ?_
  split
  · refine .bind (keyNames?_obeys _) fun names? => ?_
    split
    · exact .pure _
    · exact .bind .heap fun _ => .pure _
  · exact .bind (keyNames?_obeys _) fun _ => .pure _

theorem badLambdaList_obeys (list : Value) (reason : String) :
    Obeys R (badLambdaList list reason : Compile α) :=
  .bind (.describe list) fun _ => .throw _

theorem parseItems_obeys (list : Value) (current : Section) (parsed : LambdaList)
    (items : List Value) : Obeys R (parseItems list current parsed items) := by
  induction items generalizing current parsed with
  | nil =>
      rw [parseItems]
      split
      · exact badLambdaList_obeys _ _
      · exact .pure _
  | cons item items ih =>
      unfold parseItems
      dsimp only
      split
      · split
        · split
          · exact ih _ _
          · exact badLambdaList_obeys _ _
        · split
          · split
            · exact ih _ _
            · exact badLambdaList_obeys _ _
          · exact badLambdaList_obeys _ _
      · split
        · split
          · exact ih _ _
          · exact badLambdaList_obeys _ _
        · refine .bind .heap fun heap => ?_
          split
          · exact ih _ _
          · exact badLambdaList_obeys _ _
        · split
          · exact ih _ _
          · exact badLambdaList_obeys _ _
        · refine .bind (keyParam?_obeys item) fun param? => ?_
          split
          · exact ih _ _
          · exact badLambdaList_obeys _ _
        · exact badLambdaList_obeys _ _

theorem parseLambdaList_obeys (list : Value) : Obeys R (parseLambdaList list) := by
  refine .bind .heap fun heap => ?_
  split
  · exact parseItems_obeys _ _ _ _
  · exact badLambdaList_obeys _ _

end LambdaLists

section Lambdas

variable [Gradual R]

variable {compile : FormCompiler} (forms : ∀ context form, Obeys R (compile context form))
  (context : Context) (specials : List SymbolId)

theorem bindRequired_obeys (head : Head) (vars : List SymbolId) :
    Obeys R (bindRequired specials head vars) := by
  induction vars generalizing head with
  | nil => exact .pure _
  | cons var rest ih =>
      rw [bindRequired]
      refine .bind (.freshVariableFor var) fun host => ?_
      exact .bind (bindParameter_obeys _ _ _ _) fun head => .bind (ih head) fun _ => .pure _

theorem bindSupplied_obeys (head : Head) (position : Nat) (params : List OptionalParam) :
    Obeys R (bindSupplied specials head position params) := by
  induction params generalizing head position with
  | nil => exact .pure _
  | cons param rest ih =>
      rw [bindSupplied]
      refine .bind (.freshVariableFor _) fun host => ?_
      have onward (head : Head) : Obeys R (do
          let bound ← bindSupplied specials head (position + 1) rest
          return (bound.1, host :: bound.2)) :=
        .bind (ih head _) fun _ => .pure _
      dsimp only
      split
      · exact onward _
      · exact .bind (.freshVariableFor _) fun flag => .bind (bindParameter_obeys _ _ _ _) onward

theorem bindRest_obeys (head : Head) (first : Nat) (rest : SymbolId) :
    Obeys R (bindRest specials head first rest) :=
  .bind (.freshVariableFor rest) fun _ => .bind (.onCounters _ fun _ => rfl) fun _ =>
    bindParameter_obeys _ _ _ _

include forms

theorem bindDefaultsInOrder_obeys (head : Head) (position : Nat)
    (params : List (OptionalParam × String)) :
    Obeys R (bindDefaultsInOrder compile context specials head position params) := by
  induction params generalizing head position with
  | nil => exact .pure _
  | cons param rest ih =>
      rw [bindDefaultsInOrder]
      refine .bind (compileSingle_obeys forms _) fun default => ?_
      exact .bind (bindParameter_obeys _ _ _ _) fun head => ih head _

theorem defaultCases_obeys (env : Environment) (position : Nat)
    (params : List (OptionalParam × String)) :
    Obeys R (defaultCases compile context env position params) := by
  induction params generalizing env position with
  | nil => exact .pure _
  | cons param rest ih =>
      rw [defaultCases]
      refine .bind (compileSingle_obeys forms _) fun default => ?_
      exact .bind (variableBinding_obeys _ _ _) fun binding => .bind (ih _ _) fun _ => .pure _

theorem bindDefaults_obeys (head : Head) (position : Nat)
    (params : List (OptionalParam × String)) :
    Obeys R (bindDefaults compile context specials head position params) := by
  refine .bind (.anyM _ fun _ => bindsSpecial_obeys _ _) fun special => ?_
  split
  · exact bindDefaultsInOrder_obeys forms _ _ _ _ _
  · split
    · exact .pure _
    · exact .bind (defaultCases_obeys forms _ _ _ _) fun _ => .pure _

theorem bindKeys_obeys (index : String) (first : Nat) (head : Head) (params : List KeyParam) :
    Obeys R (bindKeys compile context specials index first head params) := by
  induction params generalizing head with
  | nil => exact .pure _
  | cons param rest ih =>
      rw [bindKeys]
      refine .bind (.freshVariableFor _) fun host => .bind (.symbolLiteral _) fun keyword => ?_
      refine .bind (.optionMapM _ fun _ => .bind (.freshVariableFor _) fun _ => .pure _) ?_
      intro flag?
      refine .bind (compileSingle_obeys forms _) fun default => ?_
      have finish (head : Head) : Obeys R (do
          let head ← bindParameter specials head param.var host
          let bound ← bindKeys compile context specials index first head rest
          return (bound.1, keyword :: bound.2)) :=
        .bind (bindParameter_obeys _ _ _ _) fun head => .bind (ih head) fun _ => .pure _
      dsimp only
      split
      · exact .bind (bindParameter_obeys _ _ _ _) finish
      · exact finish _

theorem bindKeySection_obeys (head : Head) (list : LambdaList) (first : Nat) :
    Obeys R (bindKeySection compile context specials head list first) := by
  refine .bind (.onCounters _ fun _ => rfl) fun index => ?_
  refine .bind (bindKeys_obeys forms _ _ _ _ _ _) fun result => ?_
  dsimp only
  split
  · exact .pure _
  · exact .bind (.symbolLiteral _) fun _ => .bind (.onCounters _ fun _ => rfl) fun _ => .pure _

theorem bindParameters_obeys (list : LambdaList) :
    Obeys R (bindParameters compile context specials list) := by
  refine .bind (bindRequired_obeys _ _ _) fun required => ?_
  refine .bind (bindSupplied_obeys _ _ _ _) fun optional => ?_
  refine .bind (bindDefaults_obeys forms _ _ _ _ _) fun head => ?_
  have keyed (head : Head) : Obeys R (do
      let head ← if list.hasKeys then
          bindKeySection compile context specials head list
            (list.required.length + list.optional.length + 1)
        else Pure.pure head
      return (head, required.2 ++ optional.2)) := by
    split
    · exact .bind (bindKeySection_obeys forms _ _ _ _ _) fun _ => .pure _
    · exact .pure _
  dsimp only
  split
  · exact .bind (bindRest_obeys _ _ _ _) keyed
  · exact keyed _

omit forms in
theorem withProperties_obeys (function : Expr) (properties : List (String × String)) :
    Obeys R (withProperties function properties) := by
  unfold withProperties
  split
  · exact .pure _
  · exact .bind (.onCounters _ fun _ => rfl) fun _ => .pure _

theorem compileLambda_obeys (lambdaList : Value) (body : List Value) (name : Option SymbolId) :
    Obeys R (compileLambda compile context lambdaList body name) := by
  unfold compileLambda
  refine .bind (parseLambdaList_obeys _) fun list => .bind (parseBody_obeys _ _) fun body => ?_
  refine .bind (.forM _ fun _ => checkBindable_obeys _ _) fun _ => ?_
  have finish (items : List Value) : Obeys R (do
      let bound ← bindParameters compile context body.declarations.specials list
      let env ← applyFreeDeclarations bound.1.env body.declarations list.boundVars
      let stmts ← compileBody compile { env, manyValues := true } items
      let function := Expr.function ("values" :: bound.2) (bound.1.prologue.finish stmts)
      let fname ← name.mapM symbolName
      withProperties function (fname.toList.map (("fname", ·)) ++
        body.docstring.toList.map (("docstring", ·)))) := by
    refine .bind (bindParameters_obeys forms _ _ _) fun bound => ?_
    refine .bind (applyFreeDeclarations_obeys _ _ _) fun env => ?_
    refine .bind (compileBody_obeys forms _ _) fun stmts => ?_
    exact .bind (.optionMapM _ fun _ => .symbolName _) fun _ => withProperties_obeys _ _
  dsimp only
  split
  · exact .bind (.newList _) fun _ => .bind (.newListWithTail _ _) fun _ => finish _
  · exact finish _

end Lambdas

section References

variable [Gradual R]

theorem globalFunction_obeys (id : SymbolId) : Obeys R (globalFunction id) :=
  .bind (.symbolLiteral id) fun _ => .pure _

theorem isLambdaExpression_obeys (form : Value) : Obeys R (isLambdaExpression form) := by
  refine .bind (.carOf? form) fun head? => ?_
  split
  · exact .pure _
  · exact .pure _

theorem badFunctionName_obeys (designator : Value) :
    Obeys R (badFunctionName designator : Compile α) :=
  .bind (.describe designator) fun _ => .throw _

theorem namedFunction_obeys (context : Context) (designator : Value) (id : SymbolId) :
    Obeys R (namedFunction context designator id) := by
  refine .bind (.resolve _ _ _) fun binding? => ?_
  split
  · exact badFunctionName_obeys _
  · refine .bind (.markUsed _) fun _ => ?_
    split
    · exact .pure _
    · exact globalFunction_obeys _
    · exact badFunctionName_obeys _

variable {compile : FormCompiler} (forms : ∀ context form, Obeys R (compile context form))
  (context : Context)

include forms

theorem compileLambdaParts_obeys (designator : Value) (name : Option SymbolId)
    (items : List Value) :
    Obeys R (compileLambdaParts compile context designator name items) := by
  unfold compileLambdaParts
  split
  · exact compileLambda_obeys forms _ _ _ _
  · exact .malformed _ _

theorem functionReference_obeys (designator : Value) :
    Obeys R (functionReference compile context designator) := by
  unfold functionReference
  split
  · exact namedFunction_obeys _ _ _
  · refine .bind (isLambdaExpression_obeys _) fun found => ?_
    split
    · refine .bind .heap fun heap => ?_
      split
      · exact .malformed _ _
      · split
        · split
          · exact compileLambdaParts_obeys forms _ _ _ _
          · exact .malformed _ _
        · exact compileLambdaParts_obeys forms _ _ _ _
    · exact badFunctionName_obeys _
  · exact badFunctionName_obeys _

end References

section Templates

variable [Gradual R]

theorem quoteForm_obeys (value : Value) : Obeys R (quoteForm value) := .newList _

theorem rebuildForm_obeys (marker : Marker) (inner : Value) :
    Obeys R (rebuildForm marker inner) :=
  .bind (quoteForm_obeys _) fun _ => .newList _

theorem expandElements_obeys {limit depth : Nat}
    (templates : ∀ depth template, Obeys R (expandTemplate limit depth template))
    (items : List Value) (tail : Value) :
    Obeys R (List.foldrM (fun element result => do
        match marked? (← Compiler.heap) element, depth with
        | some (.splice, arg), 1 => newList [.symbol SymbolId.append, arg, result]
        | _, _ => do
            newList [.symbol SymbolId.cons, ← expandTemplate limit depth element, result])
      tail items) := by
  refine .foldrM _ _ fun element result => .bind .heap fun heap => ?_
  split
  · exact .newList _
  · exact .bind (templates _ _) fun _ => .newList _

theorem expandTemplate_obeys (limit : Nat) :
    (∀ depth template, Obeys R (expandTemplate limit depth template)) ∧
    (∀ depth template marker arg, Obeys R (expandMarked limit depth template marker arg)) ∧
    ∀ depth template, Obeys R (expandList limit depth template) := by
  induction limit with
  | zero => exact ⟨fun _ _ => .throw _, fun _ _ _ _ => .throw _, fun _ _ => .throw _⟩
  | succ limit ih =>
      obtain ⟨ihTemplate, ihMarked, ihList⟩ := ih
      refine ⟨fun depth template => ?_, fun depth template marker arg => ?_,
        fun depth template => ?_⟩
      · cases template
        case cons address =>
          rw [expandTemplate]
          refine .bind .heap fun heap => ?_
          split
          · exact ihMarked _ _ _ _
          · exact ihList _ _
        case vector address =>
          rw [expandTemplate]
          refine .bind .heap fun heap => ?_
          dsimp only
          refine .bind (.newList _) fun items => .bind (ihList _ _) fun list => ?_
          exact .bind (.newList _) fun _ => .newList _
        case symbol id => exact quoteForm_obeys _
        case nil => exact quoteForm_obeys _
        all_goals exact .pure _
      · cases marker with
        | backquote => exact .bind (ihTemplate _ _) fun _ => rebuildForm_obeys _ _
        | unquote =>
            rw [expandMarked]
            split
            · exact .pure _
            · exact .bind (ihTemplate _ _) fun _ => rebuildForm_obeys _ _
        | splice =>
            rw [expandMarked]
            split
            · exact .bind (.describe _) fun _ => .throw _
            · exact .bind (ihTemplate _ _) fun _ => rebuildForm_obeys _ _
      · rw [expandList]
        refine .bind .heap fun heap => ?_
        dsimp only
        have elements := fun items tail =>
          @expandElements_obeys R _ limit depth ihTemplate items tail
        split
        all_goals
          split
          · exact elements _ _
          · exact .bind (ihTemplate _ _) fun _ => elements _ _

theorem expandBackquote_obeys (template : Value) : Obeys R (expandBackquote template) :=
  .bind .heap fun _ => (expandTemplate_obeys _).1 _ _

end Templates

end LispScript.Compiler
