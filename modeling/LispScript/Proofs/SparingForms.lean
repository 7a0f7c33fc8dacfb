import LispScript.Proofs.Sparing

/-!
The code of every form spares the names that were made before it: by induction on how far forms are
looked into, from the parts of the compiler.
-/

namespace LispScript.Compiler

open Script Machine Discipline

variable {spared : String → Prop}

section Bodies

theorem isDeclaration_spares (form : Value) : Plain spared (isDeclaration form) :=
  .bind (.carOf? form) fun _ _ => .pure trivial

theorem addDeclared_spares (form : Value) (kind : SymbolId) (specs : DeclSpecs)
    (names : List Value) :
    Plain spared (addDeclared form kind specs names) := by
  induction names generalizing specs with
  | nil => exact .pure trivial
  | cons name rest ih =>
      rw [addDeclared]
      split
      · exact ih _
      · exact .malformed _ _

theorem addSpecifiers_spares (form : Value) (specs : DeclSpecs) (specifiers : List Value) :
    Plain spared (addSpecifiers form specs specifiers) := by
  induction specifiers generalizing specs with
  | nil => exact .pure trivial
  | cons specifier rest ih =>
      rw [addSpecifiers]
      refine .bind .heap fun heap _ => ?_
      split
      · exact .malformed _ _
      · exact ih _
      · split
        · split
          · exact .bind (addDeclared_spares _ _ _ _) fun specs _ => ih specs
          · exact ih _
        · exact ih _

theorem parseDeclaration_spares (form : Value) (specs : DeclSpecs) :
    Plain spared (parseDeclaration form specs) := by
  refine .bind (.restItems? form) fun items? _ => ?_
  split
  · exact addSpecifiers_spares _ _ _
  · exact .malformed _ _

theorem parseBodyFrom_spares (body : Body) (allowDocstring : Bool) (forms : List Value) :
    Plain spared (parseBodyFrom body allowDocstring forms) := by
  induction forms generalizing body with
  | nil => exact .pure trivial
  | cons form rest ih =>
      cases form
      case string address text =>
        rw [parseBodyFrom]
        split
        · exact ih _
        · exact .pure trivial
      all_goals
        simp only [parseBodyFrom]
        refine .bind (isDeclaration_spares _) fun found _ => ?_
        split
        · exact .bind (parseDeclaration_spares _ _) fun _ _ => ih _
        · exact .pure trivial

theorem parseBody_spares (forms : List Value) (allowDocstring : Bool) :
    Plain spared (parseBody forms allowDocstring) :=
  parseBodyFrom_spares _ _ _

theorem redeclare_spares {env : Environment} (apart : Apart spared env) (id : SymbolId)
    (space : Namespace) {change : Binding → Bindings → Bindings}
    (same : ∀ binding bindings, (change binding bindings).globals = bindings.globals) :
    Spares spared (redeclare env id space change) (Apart spared) := by
  refine .bind (.resolve _ _ _) fun current? known => ?_
  split
  · exact .pure apart
  · rename_i current
    refine .bind (P := fun shadow => shadow.reference = current.reference)
      (.onBindings fun _ none_ => ⟨none_, rfl⟩) fun shadow reference => ?_
    refine .bind (.modifyBindings (same shadow)) fun _ _ => .pure (apart.cons fun name host => ?_)
    exact apart name (known current rfl name (reference ▸ host))

theorem applyFreeDeclarations_spares {env : Environment} (apart : Apart spared env)
    (specs : DeclSpecs) (bound : List SymbolId) :
    Spares spared (applyFreeDeclarations env specs bound) (Apart spared) := by
  refine .bind (.foldlM _ apart fun env id apart =>
    redeclare_spares apart id .vars fun _ _ => rfl) fun env apart => ?_
  refine .bind (.foldlM _ apart fun env id apart =>
    redeclare_spares apart id .functions fun _ _ => rfl) fun env apart => ?_
  exact .foldlM _ apart fun env id apart => redeclare_spares apart id .functions fun _ _ => rfl

end Bodies

section Sequences

variable {compile : FormCompiler} {context : Context}

theorem compileArgs_spares (forms : SparesForms spared compile) (apart : Apart spared context.env)
    (args : List Value) :
    Spares spared (compileArgs compile context args) fun codes =>
      Free spared (Expr.assignedAll codes) :=
  (Spares.mapM args fun form _ => forms context.single form apart).mono fun _ => free_exprs.mpr

theorem compileSingle_spares (forms : SparesForms spared compile)
    (apart : Apart spared context.env) (form : Value) :
    Spares spared (compileSingle compile context form) fun code => Free spared code.assigned :=
  forms context.single form apart

theorem compileBundle_spares (forms : SparesForms spared compile)
    (apart : Apart spared context.env) (form : Value) :
    Spares spared (compileBundle compile context form) fun code => Free spared code.assigned := by
  refine .bind (forms context.many form apart) fun value free => .pure ?_
  simpa [Stmt.assignedAll, Stmt.assigned, Expr.routine, Expr.assigned] using free

theorem compileCall_spares (forms : SparesForms spared compile) (apart : Apart spared context.env)
    {callee : Expr} (free : Free spared callee.assigned) (args : List Value) :
    Spares spared (compileCall compile context callee args) fun code =>
      Free spared code.assigned := by
  refine .bind (compileArgs_spares forms apart args) fun codes freeArgs => .pure ?_
  simp [Expr.assigned, Expr.assignedAll, free, freeArgs]

theorem compileEffects_spares (forms : SparesForms spared compile)
    (apart : Apart spared context.env) (items : List Value) :
    Spares spared (compileEffects compile context items) fun codes =>
      Free spared (Expr.assignedAll codes) := by
  refine .bind (compileArgs_spares forms apart items) fun codes free => .pure ?_
  rw [free_exprs] at free ⊢
  exact fun code member => free code (List.mem_filter.mp member).1

theorem compileBody_spares (forms : SparesForms spared compile) (apart : Apart spared context.env)
    (items : List Value) :
    Spares spared (compileBody compile context items) fun stmts =>
      Free spared (Stmt.assignedAll stmts) := by
  unfold compileBody
  split
  · exact .pure (by simp [Stmt.assignedAll, Stmt.assigned, Expr.nil, Expr.assigned])
  · refine .bind (compileEffects_spares forms apart _) fun effects free => ?_
    refine .bind (forms context _ apart) fun value freeValue => .pure ?_
    simp [Stmt.assignedAll, Stmt.assigned, free, freeValue]

theorem compileProgn_spares (forms : SparesForms spared compile) (apart : Apart spared context.env)
    (items : List Value) :
    Spares spared (compileProgn compile context items) fun code => Free spared code.assigned := by
  unfold compileProgn
  split
  · exact .pure (by simp [Expr.nil, Expr.assigned])
  · refine .bind (compileEffects_spares forms apart _) fun effects free => ?_
    refine .bind (forms context _ apart) fun value freeValue => .pure ?_
    split
    · exact freeValue
    · simp [Expr.assigned, Expr.assignedAll, free, freeValue]

end Sequences

section Variables

variable {context : Context}

theorem isConstantSymbol_spares (id : SymbolId) : Plain spared (isConstantSymbol context id) := by
  refine .bind .symbols fun symbols _ => ?_
  split
  · exact .pure trivial
  · refine .bind (.resolve _ _ _) fun binding? _ => ?_
    split
    · exact .bind (.declared _) fun _ _ => .pure trivial
    · exact .pure trivial

theorem checkBindable_spares (id : SymbolId) : Plain spared (checkBindable context id) := by
  refine .bind (isConstantSymbol_spares id) fun constant _ => ?_
  split
  · exact .bind (.symbolName id) fun _ _ => .throw _
  · exact .pure trivial

theorem bindsSpecial_spares (id : SymbolId) (specials : List SymbolId) :
    Plain spared (bindsSpecial id specials) := by
  unfold bindsSpecial
  split
  · exact .pure trivial
  · refine .bind .get fun s _ => ?_
    dsimp only
    split
    · exact .pure trivial
    · exact .pure trivial

theorem variableBinding_spares (id : SymbolId) (host : String) (special : Bool) :
    Spares spared (variableBinding id host special) fun binding =>
      ∀ name, binding.reference = .host name → name = host := by
  unfold variableBinding
  split
  · refine .bind (.newBinding _ _ _) fun binding reference => ?_
    refine .bind (.modifyBindings fun _ => rfl) fun _ _ => .pure ?_
    rw [reference]
    exact nofun
  · refine (Spares.newBinding _ _ _).mono fun binding reference => ?_
    rw [reference]
    rintro name ⟨⟩
    rfl

theorem hostVariable?_spares (binding : Binding) :
    Spares spared (hostVariable? binding) fun host? =>
      ∀ name ∈ host?, binding.reference = .host name := by
  unfold hostVariable?
  split
  · rename_i name reference
    refine .bind (.declared _) fun declarations _ => .pure ?_
    split
    · exact nofun
    · rintro _ ⟨⟩
      exact reference
  · exact .pure nofun

theorem compileSymbol_spares (id : SymbolId) :
    Spares spared (compileSymbol context id) fun code => Free spared code.assigned := by
  refine .bind .symbols fun symbols _ => ?_
  split
  · exact (symbolLiteral_spares id).free
  · refine .bind (.resolve _ _ _) fun binding? _ => ?_
    split
    · exact .bind (.describe _) fun _ _ => .throw _
    · refine .bind (.markUsed _) fun _ _ => ?_
      split
      · exact (literal_spares _).free
      · refine .bind (hostVariable?_spares _) fun host? _ => ?_
        split
        · exact .pure free_nil
        · refine .bind (symbolLiteral_spares id) fun code empty => .pure ?_
          simp [Expr.assignedAll, empty]

theorem variablePlace_spares (apart : Apart spared context.env) (id : SymbolId) :
    Spares spared (variablePlace context id) fun place =>
      Free spared (place.named ++ place.assigned) := by
  refine .bind (isConstantSymbol_spares id) fun constant _ => ?_
  split
  · exact .bind (.symbolName id) fun _ _ => .throw _
  · refine .bind (.resolve _ _ _) fun binding? known => ?_
    split
    · exact .bind (.describe _) fun _ _ => .throw _
    · refine .bind (.markUsed _) fun _ _ => ?_
      refine .bind (hostVariable?_spares _) fun host? isHost => ?_
      split
      · rename_i name
        refine .pure ?_
        simpa [Expr.named, Expr.assigned] using apart name (known _ rfl name (isHost name rfl))
      · refine .bind (symbolLiteral_spares id) fun code empty => .pure ?_
        simp [Expr.named, Expr.assigned, empty]

end Variables

section Prologues

/-- The statements of a prologue assign to no spared name. -/
structure Prologue.Spares (spared : String → Prop) (prologue : Prologue) : Prop where
  current : Free spared (Stmt.assignedAll prologue.current)
  sections : ∀ before restore, (before, restore) ∈ prologue.sections →
    Free spared (Stmt.assignedAll before) ∧ Free spared restore.assigned

theorem Prologue.Spares.empty : Prologue.Spares spared {} := ⟨free_nil, nofun⟩

theorem Prologue.Spares.add {prologue : Prologue} (spares : prologue.Spares spared)
    {stmts : List Stmt} (free : Free spared (Stmt.assignedAll stmts)) :
    (prologue.add stmts).Spares spared :=
  ⟨by simp [Prologue.add, spares.current, free], spares.sections⟩

theorem Prologue.Spares.finish {prologue : Prologue} (spares : prologue.Spares spared)
    {body : List Stmt} (free : Free spared (Stmt.assignedAll body)) :
    Free spared (Stmt.assignedAll (prologue.finish body)) := by
  obtain ⟨current, sections⟩ := spares
  have inside : Free spared (Stmt.assignedAll (prologue.current ++ body)) := by simp [current, free]
  rw [Prologue.finish]
  generalize prologue.current ++ body = inner at inside
  generalize prologue.sections = all at sections
  induction all generalizing inner with
  | nil => exact inside
  | cons section_ rest ih =>
      obtain ⟨before, restore⟩ := section_
      obtain ⟨freeBefore, freeRestore⟩ := sections before restore List.mem_cons_self
      rw [List.foldl_cons]
      refine ih _ ?_ fun before restore member => sections before restore (.tail _ member)
      simp [Stmt.assignedAll, Stmt.assigned, Handler.assigned, Cleanup.assigned, freeBefore,
        freeRestore, inside]

theorem bindSpecial_spares {prologue : Prologue} (spares : prologue.Spares spared) (id : SymbolId)
    {value : Expr} (free : Free spared value.assigned) :
    Spares spared (prologue.bindSpecial id value) (Prologue.Spares spared) := by
  refine .bind (symbolLiteral_spares id) fun cell empty => ?_
  refine .bind (.freshVariable _) fun old _ => .pure ⟨free_nil, ?_⟩
  intro before restore member
  rcases List.mem_cons.mp member with same | member
  · cases same
    refine ⟨?_, ?_⟩
    · simp [Stmt.assignedAll, Stmt.assigned, Expr.assigned, Expr.named, spares.current, empty, free]
    · simp [Stmt.assigned, Expr.assigned, Expr.named, empty]
  · exact spares.sections before restore member

/-- A function's head spares names. -/
structure Head.Spares (spared : String → Prop) (head : Head) : Prop where
  env : Apart spared head.env
  prologue : head.prologue.Spares spared

theorem Head.Spares.add {head : Head} (spares : head.Spares spared) (stmts : List Stmt)
    (free : Free spared (Stmt.assignedAll stmts)) :
    (head.add stmts).Spares spared :=
  ⟨spares.env, spares.prologue.add free⟩

theorem bindParameter_spares {head : Head} (spares : head.Spares spared)
    (specials : List SymbolId) (var : SymbolId) {host : String} (new : ¬ spared host) :
    Spares spared (bindParameter specials head var host) (Head.Spares spared) := by
  refine .bind (bindsSpecial_spares var specials) fun special _ => ?_
  have bound : ∀ prologue : Prologue, prologue.Spares spared →
      Spares spared (do
        let binding ← variableBinding var host special
        return ({ env := binding :: head.env, prologue } : Head)) (Head.Spares spared) :=
    fun prologue sparesPrologue => .bind (variableBinding_spares var host special)
      fun binding known => .pure
        ⟨spares.env.cons fun name isHost => known name isHost ▸ new, sparesPrologue⟩
  dsimp only
  split
  · exact .bind (bindSpecial_spares spares.prologue var free_nil) bound
  · exact bound _ spares.prologue

end Prologues

section LambdaLists

theorem keyNames?_spares (head : Value) : Plain spared (keyNames? head) := by
  unfold keyNames?
  split
  · refine .bind .heap fun heap _ => ?_
    split
    · exact .pure trivial
    · exact .pure trivial
  · split
    · exact .bind (.symbolName _) fun _ _ => .bind (.onSymbols _) fun _ _ => .pure trivial
    · exact .pure trivial

theorem keyParam?_spares (item : Value) : Plain spared (keyParam? item) := by
  refine .bind (.carOf? item) fun head? _ => ?_
  split
  · refine .bind (keyNames?_spares _) fun names? _ => ?_
    split
    · exact .pure trivial
    · exact .bind .heap fun _ _ => .pure trivial
  · exact .bind (keyNames?_spares _) fun _ _ => .pure trivial

theorem badLambdaList_spares (list : Value) (reason : String) {P : α → Prop} :
    Spares spared (badLambdaList list reason) P :=
  .bind (.describe list) fun _ _ => .throw _

theorem parseItems_spares (list : Value) (current : Section) (parsed : LambdaList)
    (items : List Value) :
    Plain spared (parseItems list current parsed items) := by
  induction items generalizing current parsed with
  | nil =>
      rw [parseItems]
      split
      · exact badLambdaList_spares _ _
      · exact .pure trivial
  | cons item items ih =>
      unfold parseItems
      dsimp only
      split
      · split
        · split
          · exact ih _ _
          · exact badLambdaList_spares _ _
        · split
          · split
            · exact ih _ _
            · exact badLambdaList_spares _ _
          · exact badLambdaList_spares _ _
      · split
        · split
          · exact ih _ _
          · exact badLambdaList_spares _ _
        · refine .bind .heap fun heap _ => ?_
          split
          · exact ih _ _
          · exact badLambdaList_spares _ _
        · split
          · exact ih _ _
          · exact badLambdaList_spares _ _
        · refine .bind (keyParam?_spares item) fun param? _ => ?_
          split
          · exact ih _ _
          · exact badLambdaList_spares _ _
        · exact badLambdaList_spares _ _

theorem parseLambdaList_spares (list : Value) : Plain spared (parseLambdaList list) := by
  refine .bind .heap fun heap _ => ?_
  split
  · exact parseItems_spares _ _ _ _
  · exact badLambdaList_spares _ _

theorem sortItems_spares (list : Value) (isFirst required : Bool) (sorted : MacroItems)
    (items : List Value) :
    Plain spared (sortItems list isFirst required sorted items) := by
  induction n : items.length using Nat.strong_induction_on
    generalizing isFirst required sorted items with
  | _ n ih =>
    subst n
    cases items with
    | nil => exact .pure trivial
    | cons item rest =>
        have onward : ∀ isFirst required sorted,
            Plain spared (sortItems list isFirst required sorted rest) :=
          fun isFirst required sorted => ih rest.length (by simp) isFirst required sorted rest rfl
        have further : ∀ value more, rest = value :: more → ∀ isFirst required sorted,
            Plain spared (sortItems list isFirst required sorted more) := by
          rintro value more rfl isFirst required sorted
          exact ih more.length (by simp only [List.length_cons]; omega) isFirst required sorted more rfl
        unfold sortItems
        split
        · split
          · split
            · exact badLambdaList_spares _ _
            · split
              · exact badLambdaList_spares _ _
              · split
                · exact further _ _ rfl _ _ _
                · exact badLambdaList_spares _ _
          · split
            · split
              · exact badLambdaList_spares _ _
              · split
                · exact further _ _ rfl _ _ _
                · exact badLambdaList_spares _ _
            · exact onward _ _ _
        · split
          · exact .bind (.onSymbols _) fun _ _ => onward _ _ _
          · exact onward _ _ _

theorem tailItems_spares (list tail : Value) : Plain spared (tailItems list tail) := by
  unfold tailItems
  split
  · exact .pure trivial
  · exact .pure trivial
  · exact badLambdaList_spares _ _

theorem letForm_spares (var : SymbolId) (value : Value) (body : List Value) :
    Plain spared (letForm var value body) :=
  .bind (.newList _) fun _ _ => .bind (.newList _) fun _ _ => .bind (.newList _) fun _ _ =>
    .newListWithTail _ _

theorem spreadBody_spares (param : SymbolId) (lowered : Lowered) :
    Plain spared (spreadBody param lowered) := by
  have spread : Plain spared (spreadForm lowered param) :=
    .bind (.newList _) fun _ _ => .bind (.newListWithTail _ _) fun _ _ =>
      .bind (.newList _) fun _ _ => .newList _
  refine .bind spread fun form _ => ?_
  split
  · exact .bind (letForm_spares _ _ _) fun _ _ => .pure trivial
  · exact .pure trivial

theorem foldrM_spares {f : γ → α → Compile α} (items : List γ) (start : α)
    (each : ∀ item a, Plain spared (f item a)) :
    Plain spared (items.foldrM f start) := by
  induction items with
  | nil => exact .pure trivial
  | cons item rest ih =>
      rw [List.foldrM_cons]
      exact .bind ih fun a _ => each item a

theorem lowerWithin_spares (depth : Nat) (list : Value) (body : List Value) :
    Plain spared (lowerWithin depth list body) := by
  induction depth generalizing list body with
  | zero => exact .throw _
  | succ depth ih =>
      rw [lowerWithin]
      refine .bind .heap fun heap _ => ?_
      dsimp only
      refine .bind (sortItems_spares _ _ _ _ _) fun sorted _ => ?_
      refine .bind (tailItems_spares _ _) fun tail _ => ?_
      have rest : ∀ body, Plain spared (do
          let body ← sorted.destructured.foldrM (fun item body => do
            spreadBody item.1 (← lowerWithin depth item.2 body)) body
          return (⟨← newList (sorted.flat ++ tail), body, sorted.whole⟩ : Lowered)) := fun body =>
        .bind (foldrM_spares _ _ fun _ _ => .bind (ih _ _) fun _ _ => spreadBody_spares _ _)
          fun _ _ => .bind (.newList _) fun _ _ => .pure trivial
      split
      · exact .bind (letForm_spares _ _ _) fun _ _ => rest _
      · exact rest _

end LambdaLists

section Templates

theorem quoteForm_spares (value : Value) : Plain spared (quoteForm value) := .newList _

theorem rebuildForm_spares (marker : Marker) (inner : Value) :
    Plain spared (rebuildForm marker inner) :=
  .bind (quoteForm_spares _) fun _ _ => .newList _

theorem expandElements_spares {limit depth : Nat}
    (templates : ∀ depth template, Plain spared (expandTemplate limit depth template))
    (items : List Value) (tail : Value) :
    Plain spared (List.foldrM (fun element result => do
        match marked? (← Compiler.heap) element, depth with
        | some (.splice, arg), 1 => newList [.symbol SymbolId.append, arg, result]
        | _, _ => do
            newList [.symbol SymbolId.cons, ← expandTemplate limit depth element, result])
      tail items) := by
  refine foldrM_spares _ _ fun element result => .bind .heap fun heap _ => ?_
  split
  · exact .newList _
  · exact .bind (templates _ _) fun _ _ => .newList _

theorem expandTemplate_spares (limit : Nat) :
    (∀ depth template, Plain spared (expandTemplate limit depth template)) ∧
    (∀ depth template marker arg, Plain spared (expandMarked limit depth template marker arg)) ∧
    ∀ depth template, Plain spared (expandList limit depth template) := by
  induction limit with
  | zero => exact ⟨fun _ _ => .throw _, fun _ _ _ _ => .throw _, fun _ _ => .throw _⟩
  | succ limit ih =>
      obtain ⟨ihTemplate, ihMarked, ihList⟩ := ih
      refine ⟨fun depth template => ?_, fun depth template marker arg => ?_,
        fun depth template => ?_⟩
      · cases template
        case cons address =>
          rw [expandTemplate]
          refine .bind .heap fun heap _ => ?_
          split
          · exact ihMarked _ _ _ _
          · exact ihList _ _
        case vector address =>
          rw [expandTemplate]
          refine .bind .heap fun heap _ => ?_
          dsimp only
          refine .bind (.newList _) fun items _ => .bind (ihList _ _) fun list _ => ?_
          exact .bind (.newList _) fun _ _ => .newList _
        case symbol id => exact quoteForm_spares _
        case nil => exact quoteForm_spares _
        all_goals exact .pure trivial
      · cases marker with
        | backquote => exact .bind (ihTemplate _ _) fun _ _ => rebuildForm_spares _ _
        | unquote =>
            rw [expandMarked]
            split
            · exact .pure trivial
            · exact .bind (ihTemplate _ _) fun _ _ => rebuildForm_spares _ _
        | splice =>
            rw [expandMarked]
            split
            · exact .bind (.describe _) fun _ _ => .throw _
            · exact .bind (ihTemplate _ _) fun _ _ => rebuildForm_spares _ _
      · rw [expandList]
        refine .bind .heap fun heap _ => ?_
        dsimp only
        have elements := fun items tail =>
          @expandElements_spares spared limit depth ihTemplate items tail
        split
        · split
          · exact elements _ _
          · exact .bind (ihTemplate _ _) fun _ _ => elements _ _
        · split
          · exact elements _ _
          · exact .bind (ihTemplate _ _) fun _ _ => elements _ _
        · split
          · exact elements _ _
          · exact .bind (ihTemplate _ _) fun _ _ => elements _ _

theorem expandBackquote_spares (template : Value) : Plain spared (expandBackquote template) :=
  .bind .heap fun _ _ => (expandTemplate_spares _).1 _ _

end Templates

section Lambdas

variable {compile : FormCompiler} {context : Context} {specials : List SymbolId} {head : Head}

/-- What the steps that bind parameters give: a head, and the names of new variables. -/
def FreshHead (spared : String → Prop) (result : Head × List String) : Prop :=
  result.1.Spares spared ∧ ∀ host ∈ result.2, ¬ spared host

theorem FreshHead.cons {result : Head × List String} (fresh : FreshHead spared result)
    {host : String} (new : ¬ spared host) :
    FreshHead spared (result.1, host :: result.2) :=
  ⟨fresh.1, List.forall_mem_cons.mpr ⟨new, fresh.2⟩⟩

theorem bindRequired_spares (spares : head.Spares spared) (vars : List SymbolId) :
    Spares spared (bindRequired specials head vars) (FreshHead spared) := by
  induction vars generalizing head with
  | nil => exact .pure ⟨spares, nofun⟩
  | cons var rest ih =>
      rw [bindRequired]
      refine .bind (.freshVariableFor var) fun host new => ?_
      refine .bind (bindParameter_spares spares specials var new) fun head spares => ?_
      exact .bind (ih spares) fun _ fresh => .pure (fresh.cons new)

theorem bindSupplied_spares (spares : head.Spares spared) (position : Nat)
    (params : List OptionalParam) :
    Spares spared (bindSupplied specials head position params) (FreshHead spared) := by
  induction params generalizing head position with
  | nil => exact .pure ⟨spares, nofun⟩
  | cons param rest ih =>
      rw [bindSupplied]
      refine .bind (.freshVariableFor _) fun host new => ?_
      have onward : ∀ head : Head, head.Spares spared → Spares spared (do
          let bound ← bindSupplied specials head (position + 1) rest
          return (bound.1, host :: bound.2)) (FreshHead spared) := fun head spares =>
        .bind (ih spares _) fun _ fresh => .pure (fresh.cons new)
      dsimp only
      split
      · exact onward _ spares
      · refine .bind (.freshVariableFor _) fun flag newFlag => ?_
        have added := spares.add [.define flag
          (.cond (.binary .gt argumentCount (countLiteral position)) .t .nil)]
          (by simp [Stmt.assignedAll, Stmt.assigned, Expr.assigned, argumentCount, argumentsLength,
            countLiteral, Expr.t, Expr.nil])
        exact .bind (bindParameter_spares added specials _ newFlag) onward

/-- The parameters whose values are in new variables. -/
def NewHosts (spared : String → Prop) (params : List (OptionalParam × String)) : Prop :=
  ∀ param ∈ params, ¬ spared param.2

theorem assignStmt_free {host : String} {value : Expr} (new : ¬ spared host)
    (free : Free spared value.assigned) : Free spared (assignStmt host value).assigned := by
  simp [assignStmt, assignVar, Stmt.assigned, Expr.assigned, Expr.named, new, free]

theorem bindDefaultsInOrder_spares (forms : SparesForms spared compile)
    (spares : head.Spares spared) (position : Nat) (params : List (OptionalParam × String))
    (new : NewHosts spared params) :
    Spares spared (bindDefaultsInOrder compile context specials head position params)
      (Head.Spares spared) := by
  induction params generalizing head position with
  | nil => exact .pure spares
  | cons param rest ih =>
      obtain ⟨param, host⟩ := param
      have newHost : ¬ spared host := new _ List.mem_cons_self
      rw [bindDefaultsInOrder]
      refine .bind (compileSingle_spares forms spares.env _) fun default free => ?_
      dsimp only
      have added := spares.add [.branch
        (.binary .le argumentCount (countLiteral position)) [assignStmt host default] []]
        (by simp [Stmt.assignedAll, Stmt.assigned, Expr.assigned, argumentCount, argumentsLength,
          countLiteral, assignStmt_free newHost free])
      refine .bind (bindParameter_spares added specials _ newHost) fun head spares => ?_
      exact ih spares _ fun other member => new other (List.mem_cons_of_mem _ member)

theorem variableBinding_apart {env : Environment} (apart : Apart spared env) (id : SymbolId)
    {host : String} (special : Bool) (new : ¬ spared host) :
    Spares spared (variableBinding id host special) fun binding =>
      Apart spared (binding :: env) :=
  (variableBinding_spares id host special).mono fun _ known =>
    apart.cons fun name isHost => known name isHost ▸ new

theorem defaultCases_spares (forms : SparesForms spared compile) {env : Environment}
    (apart : Apart spared env) (position : Nat) (params : List (OptionalParam × String))
    (new : NewHosts spared params) :
    Spares spared (defaultCases compile context env position params) fun result =>
      Apart spared result.1 ∧ Free spared (Case.assignedAll result.2) := by
  induction params generalizing env position with
  | nil => exact .pure ⟨apart, free_nil⟩
  | cons param rest ih =>
      obtain ⟨param, host⟩ := param
      have newHost : ¬ spared host := new _ List.mem_cons_self
      rw [defaultCases]
      refine .bind (compileSingle_spares forms apart _) fun default free => ?_
      refine .bind (variableBinding_apart apart _ _ newHost) fun binding apart => ?_
      refine .bind (ih apart _ fun other member => new other (List.mem_cons_of_mem _ member))
        fun result known => .pure ⟨known.1, ?_⟩
      simp [Case.assignedAll, Case.assigned, Stmt.assignedAll, countLiteral, Expr.assigned,
        assignStmt_free newHost free, known.2]

theorem bindDefaults_spares (forms : SparesForms spared compile) (spares : head.Spares spared)
    (position : Nat) (params : List (OptionalParam × String)) (new : NewHosts spared params) :
    Spares spared (bindDefaults compile context specials head position params)
      (Head.Spares spared) := by
  refine .bind (.anyM _ fun _ => bindsSpecial_spares _ _) fun special _ => ?_
  split
  · exact bindDefaultsInOrder_spares forms spares position params new
  · split
    · exact .pure spares
    · refine .bind (defaultCases_spares forms spares.env position params new) fun result known => ?_
      obtain ⟨env, cases_⟩ := result
      refine .pure ⟨known.1, (spares.add _ ?_).prologue⟩
      simp [Stmt.assignedAll, Stmt.assigned, Expr.assigned, argumentCount, argumentsLength,
        countLiteral, known.2]

theorem bindRest_spares (spares : head.Spares spared) (first : Nat) (rest : SymbolId) :
    Spares spared (bindRest specials head first rest) (Head.Spares spared) := by
  refine .bind (.freshVariableFor rest) fun host new => ?_
  refine .bind (.freshVariable _) fun index newIndex => ?_
  refine bindParameter_spares (spares.add _ ?_) specials rest new
  simp [collectRest, assignVar, assignStmt, Stmt.assignedAll, Stmt.assigned, Expr.assigned,
    Expr.assignedAll, Expr.named, argumentCount, argumentsLength, argumentAt, countLiteral, Expr.nil,
    new, newIndex]

theorem scanPairs_free {index : String} (first : Nat) (body : List Stmt) (new : ¬ spared index)
    (free : Free spared (Stmt.assignedAll body)) :
    Free spared (scanPairs index first body).assigned := by
  simp [scanPairs, assignVar, Stmt.assigned, Expr.assigned, Expr.named, argumentsLength,
    countLiteral, new, free]

theorem argumentAt_assigned (position : Expr) :
    (argumentAt position).assigned = position.assigned := by
  simp [argumentAt, Expr.assigned]

theorem pairedArgument_assigned (index : String) : (pairedArgument index).assigned = [] := by
  simp [pairedArgument, argumentAt_assigned, Expr.assigned, countLiteral]

/-- What the steps that bind keyword parameters give: a head, and literals. -/
def KeyedHead (spared : String → Prop) (result : Head × List Expr) : Prop :=
  result.1.Spares spared ∧ ∀ keyword ∈ result.2, keyword.assigned = []

theorem bindKeys_spares (forms : SparesForms spared compile) {index : String}
    (newIndex : ¬ spared index) (first : Nat) (spares : head.Spares spared)
    (params : List KeyParam) :
    Spares spared (bindKeys compile context specials index first head params)
      (KeyedHead spared) := by
  induction params generalizing head with
  | nil => exact .pure ⟨spares, nofun⟩
  | cons param rest ih =>
      rw [bindKeys]
      refine .bind (.freshVariableFor _) fun host new => ?_
      refine .bind (symbolLiteral_spares _) fun keyword empty => ?_
      have flags : Spares spared (param.supplied.mapM fun supplied => do
          return (supplied, ← freshVariableFor supplied)) fun flag? =>
            ∀ flag ∈ flag?, ¬ spared flag.2 :=
        .optionMapM (P := fun flag : SymbolId × String => ¬ spared flag.2) _ fun supplied =>
          .bind (.freshVariableFor supplied) fun flag newFlag => .pure newFlag
      refine .bind flags fun flag? newFlags => ?_
      dsimp only
      refine .bind (compileSingle_spares forms spares.env _) fun default free => ?_
      have found : Free spared (Stmt.assignedAll ([assignStmt host (pairedArgument index)] ++
          flag?.toList.map (fun flag => assignStmt flag.2 .t) ++ [.leave none])) := by
        have given : Free spared (assignStmt host (pairedArgument index)).assigned :=
          assignStmt_free new (by rw [pairedArgument_assigned]; exact free_nil)
        cases flag? with
        | none => simp [Stmt.assignedAll, Stmt.assigned, given]
        | some flag =>
            have set_ : Free spared (assignStmt flag.2 .t).assigned :=
              assignStmt_free (newFlags flag rfl) free_nil
            simp [Stmt.assignedAll, Stmt.assigned, given, set_]
      have added := spares.add ([.declare host] ++
        flag?.toList.map (fun flag => Stmt.define flag.2 .nil) ++
        [scanPairs index first [.branch
          (.binary .strictEq (argumentAt (.ident index)) keyword)
          ([assignStmt host (pairedArgument index)] ++
            flag?.toList.map (fun flag => assignStmt flag.2 .t) ++ [.leave none]) []],
          .branch (.binary .strictEq (.ident host) .undefined) [assignStmt host default] []]) (by
        have search := scanPairs_free first [.branch
          (.binary .strictEq (argumentAt (.ident index)) keyword)
          ([assignStmt host (pairedArgument index)] ++
            flag?.toList.map (fun flag => assignStmt flag.2 .t) ++ [.leave none]) []] newIndex (by
          simp only [Stmt.assignedAll, Stmt.assigned, Expr.assigned, argumentAt_assigned, empty,
            List.append_nil, List.nil_append]
          exact found)
        have given := assignStmt_free new free
        cases flag? <;>
          simp only [Option.toList, List.map_nil, List.map_cons, List.append_nil,
            List.cons_append, List.nil_append, Stmt.assignedAll, Stmt.assigned, Expr.assigned,
            Expr.nil, free_append] at search ⊢ <;>
          exact ⟨search, given⟩)
      have finish : ∀ head : Head, head.Spares spared → Spares spared (do
          let head ← bindParameter specials head param.var host
          let bound ← bindKeys compile context specials index first head rest
          return (bound.1, keyword :: bound.2)) (KeyedHead spared) := fun head spares => by
        refine .bind (bindParameter_spares spares specials _ new) fun head spares => ?_
        refine .bind (ih spares) fun result known => .pure ⟨known.1, ?_⟩
        exact List.forall_mem_cons.mpr ⟨empty, known.2⟩
      split
      · exact .bind (bindParameter_spares added specials _ (newFlags _ rfl)) finish
      · exact finish _ added

theorem unknownKeyCheck_free {index allow : String} (newIndex : ¬ spared index)
    (newAllow : ¬ spared allow) (first : Nat) {known : List Expr} {allowKey : Expr}
    (empty : ∀ key ∈ known ++ [allowKey], key.assigned = []) :
    Free spared (Stmt.assignedAll (unknownKeyCheck index allow first known allowKey)) := by
  have waived : Free spared (assignStmt allow (pairedArgument index)).assigned :=
    assignStmt_free newAllow (by rw [pairedArgument_assigned]; exact free_nil)
  have emptyKey := empty allowKey (by simp)
  have emptyTest : ∀ (tests : List Expr) (test : Expr), test.assigned = [] →
      (∀ other ∈ tests, other.assigned = []) →
      (tests.foldl (Expr.binary .and) test).assigned = [] := by
    intro tests
    induction tests with
    | nil => exact fun test done _ => done
    | cons other rest ih =>
        intro test done all
        refine ih _ ?_ fun more member => all more (List.mem_cons_of_mem _ member)
        simp [Expr.assigned, done, all other List.mem_cons_self]
  have emptyDiffers : ∀ test ∈ (known ++ [allowKey]).map fun key =>
      Expr.binary .strictNe (argumentAt (.ident index)) key, test.assigned = [] := by
    intro test member
    obtain ⟨key, inside, rfl⟩ := List.mem_map.mp member
    simp [Expr.assigned, argumentAt_assigned, empty key inside]
  have waive := scanPairs_free first [.branch (.binary .strictEq (argumentAt (.ident index)) allowKey)
    [assignStmt allow (pairedArgument index), .leave none] []] newIndex (by
      simp [Stmt.assignedAll, Stmt.assigned, Expr.assigned, argumentAt_assigned, emptyKey, waived])
  unfold unknownKeyCheck
  simp only
  split
  · rename_i none_
    simp at none_
  · rename_i test tests some_
    rw [some_] at emptyDiffers
    have emptyAll := emptyTest tests test (emptyDiffers test List.mem_cons_self) fun other member =>
      emptyDiffers other (List.mem_cons_of_mem _ member)
    have scan := scanPairs_free first [.branch (tests.foldl (Expr.binary .and) test)
      [.effect (.callRoutine .unknownKeyword [argumentAt (.ident index)])] []] newIndex (by
        simp [Stmt.assignedAll, Stmt.assigned, Expr.assigned, Expr.assignedAll, argumentAt_assigned,
          emptyAll])
    simp [Stmt.assignedAll, Stmt.assigned, Expr.assigned, Expr.nil, waive, scan]

theorem bindKeySection_spares (forms : SparesForms spared compile) (spares : head.Spares spared)
    (list : LambdaList) (first : Nat) :
    Spares spared (bindKeySection compile context specials head list first)
      (Head.Spares spared) := by
  refine .bind (.freshVariable _) fun index newIndex => ?_
  dsimp only
  have added := spares.add [.declare index, pairCheck first] (by
    simp [pairCheck, argumentsLength, countLiteral, Stmt.assignedAll, Stmt.assigned, Expr.assigned,
      Expr.assignedAll])
  refine .bind (bindKeys_spares forms newIndex first added list.keys) fun result known => ?_
  obtain ⟨head, keywords⟩ := result
  dsimp only
  split
  · exact .pure known.1
  · refine .bind (symbolLiteral_spares _) fun allowKey empty => ?_
    refine .bind (.freshVariable _) fun allow newAllow => .pure (known.1.add _ ?_)
    refine unknownKeyCheck_free newIndex newAllow first fun key member => ?_
    rcases List.mem_append.mp member with member | member
    · exact known.2 key member
    · rw [List.mem_singleton.mp member]
      exact empty

theorem arityChecks_assigned (list : LambdaList) :
    Stmt.assignedAll (arityChecks list) = [] := by
  unfold arityChecks
  simp only
  split
  · simp [Stmt.assignedAll, Stmt.assigned, Expr.assigned, Expr.assignedAll, argumentCount,
      argumentsLength, countLiteral]
  · split <;> split <;>
      simp [Stmt.assignedAll, Stmt.assigned, Expr.assigned, Expr.assignedAll, argumentCount,
        argumentsLength, countLiteral]

theorem bindParameters_spares (forms : SparesForms spared compile)
    (apart : Apart spared context.env) (list : LambdaList) :
    Spares spared (bindParameters compile context specials list) (FreshHead spared) := by
  have start : Head.Spares spared
      { env := context.env, prologue := { current := arityChecks list } } :=
    ⟨apart, ⟨by rw [arityChecks_assigned]; exact free_nil, nofun⟩⟩
  unfold bindParameters
  dsimp only
  refine .bind (bindRequired_spares start _) fun result fresh => ?_
  obtain ⟨head, requiredHosts⟩ := result
  refine .bind (bindSupplied_spares fresh.1 _ _) fun result freshOptional => ?_
  obtain ⟨head, optionalHosts⟩ := result
  refine .bind (bindDefaults_spares forms freshOptional.1 _ _ fun param member =>
    freshOptional.2 _ (List.of_mem_zip member).2) fun head spares => ?_
  have hosts : ∀ host ∈ requiredHosts ++ optionalHosts, ¬ spared host := fun host member =>
    (List.mem_append.mp member).elim (fresh.2 host) (freshOptional.2 host)
  have keyed : ∀ head : Head, head.Spares spared → Spares spared (do
      let head ← if list.hasKeys then
          bindKeySection compile context specials head list
            (list.required.length + list.optional.length + 1)
        else pure head
      return (head, requiredHosts ++ optionalHosts)) (FreshHead spared) := fun head spares => by
    split
    · exact .bind (bindKeySection_spares forms spares list _) fun head spares =>
        .pure ⟨spares, hosts⟩
    · exact .pure ⟨spares, hosts⟩
  split
  · exact .bind (bindRest_spares spares _ _) keyed
  · exact keyed _ spares

theorem assignedAll_properties (f : String) (properties : List (String × String)) :
    Stmt.assignedAll (properties.map fun (property, text) =>
      Stmt.effect (.assign (.member (.ident f) property) (.string text))) = [] := by
  induction properties with
  | nil => rfl
  | cons property rest ih =>
      rw [List.map_cons, Stmt.assignedAll, ih]
      simp [Stmt.assigned, Expr.assigned, Expr.named]

theorem withProperties_spares {function : Expr} (free : Free spared function.assigned)
    (properties : List (String × String)) :
    Spares spared (withProperties function properties) fun code => Free spared code.assigned := by
  unfold withProperties
  split
  · exact .pure free
  · refine .bind (.freshVariable _) fun f _ => .pure ?_
    simp [Expr.inPlace, Expr.assigned, Expr.assignedAll, Stmt.assignedAll, Stmt.assigned,
      assignedAll_properties, free]

theorem compileLambda_spares (forms : SparesForms spared compile)
    (apart : Apart spared context.env) (lambdaList : Value) (body : List Value)
    (name : Option SymbolId) :
    Spares spared (compileLambda compile context lambdaList body name) fun code =>
      Free spared code.assigned := by
  unfold compileLambda
  refine .bind (parseLambdaList_spares _) fun list _ => ?_
  refine .bind (parseBody_spares _ _) fun body _ => ?_
  refine .bind (.forM _ fun _ => checkBindable_spares _) fun _ _ => ?_
  have finish : ∀ items : List Value, Spares spared (do
      let bound ← bindParameters compile context body.declarations.specials list
      let env ← applyFreeDeclarations bound.1.env body.declarations list.boundVars
      let stmts ← compileBody compile { env, manyValues := true } items
      let function := Expr.function ("values" :: bound.2) (bound.1.prologue.finish stmts)
      let fname ← name.mapM symbolName
      withProperties function (fname.toList.map (("fname", ·)) ++
        body.docstring.toList.map (("docstring", ·)))) fun code =>
          Free spared code.assigned := fun items => by
    refine .bind (bindParameters_spares forms apart list) fun result fresh => ?_
    obtain ⟨head, hosts⟩ := result
    refine .bind (applyFreeDeclarations_spares fresh.1.env _ _) fun env apart => ?_
    refine .bind (@compileBody_spares _ _ { env, manyValues := true } forms apart _)
      fun stmts free => ?_
    dsimp only
    refine .bind (.optionMapM (P := fun _ => True) _ fun id => .symbolName id) fun fname _ => ?_
    exact withProperties_spares (fresh.1.prologue.finish free) _
  split
  · exact .bind (.newList _) fun _ _ => .bind (.newListWithTail _ _) fun _ _ => finish _
  · exact finish _

end Lambdas

section Forms

variable {compile : FormCompiler} {context : Context} {form : Value}

/-- A step that gives code which spares names. -/
abbrev Codes (spared : String → Prop) (step : Compile Expr) : Prop :=
  Spares spared step fun code => Free spared code.assigned

section References

theorem globalFunction_spares (id : SymbolId) : Codes spared (globalFunction id) :=
  .bind (symbolLiteral_spares id) fun code empty => .pure (by simp [Expr.assignedAll, empty])

theorem isLambdaExpression_spares (form : Value) : Plain spared (isLambdaExpression form) := by
  refine .bind (.carOf? form) fun head? _ => ?_
  split
  · exact .pure trivial
  · exact .pure trivial

theorem badFunctionName_spares (designator : Value) {P : α → Prop} :
    Spares spared (badFunctionName designator) P :=
  .bind (.describe designator) fun _ _ => .throw _

theorem namedFunction_spares (designator : Value) (id : SymbolId) :
    Codes spared (namedFunction context designator id) := by
  refine .bind (.resolve _ _ _) fun binding? _ => ?_
  split
  · exact badFunctionName_spares _
  · refine .bind (.markUsed _) fun _ _ => ?_
    split
    · exact .pure free_nil
    · exact globalFunction_spares id
    · exact badFunctionName_spares _

theorem compileLambdaParts_spares (forms : SparesForms spared compile)
    (apart : Apart spared context.env) (designator : Value) (name : Option SymbolId)
    (items : List Value) :
    Codes spared (compileLambdaParts compile context designator name items) := by
  unfold compileLambdaParts
  split
  · exact compileLambda_spares forms apart _ _ _
  · exact .malformed _ _

theorem functionReference_spares (forms : SparesForms spared compile)
    (apart : Apart spared context.env) (designator : Value) :
    Codes spared (functionReference compile context designator) := by
  unfold functionReference
  split
  · exact namedFunction_spares _ _
  · refine .bind (isLambdaExpression_spares _) fun found _ => ?_
    split
    · refine .bind .heap fun heap _ => ?_
      split
      · exact .malformed _ _
      · split
        · split
          · exact compileLambdaParts_spares forms apart _ _ _
          · exact .malformed _ _
        · exact compileLambdaParts_spares forms apart _ _ _
    · exact badFunctionName_spares _
  · exact badFunctionName_spares _

end References

section Assignments

theorem compileIf_spares (forms : SparesForms spared compile) (apart : Apart spared context.env)
    (args : List Value) :
    Codes spared (compileIf compile context form args) := by
  refine .bind (.expectArgs _ _ _ _) fun _ _ => ?_
  split
  · refine .bind (compileSingle_spares forms apart _) fun test freeTest => ?_
    refine .bind (forms context _ apart) fun yes freeYes => ?_
    have branch : ∀ no : Expr, Free spared no.assigned →
        Free spared (Expr.cond (truthTest test) yes no).assigned := fun no freeNo => by
      simp [Expr.assigned, freeTest, freeYes, freeNo]
    split
    · exact .bind (forms context _ apart) fun no freeNo => .pure (branch no freeNo)
    · exact .pure (branch _ free_nil)
  · exact .pure free_nil

theorem compileAssignments_spares (forms : SparesForms spared compile)
    (apart : Apart spared context.env) (args : List Value) :
    Spares spared (compileAssignments compile context form args) fun codes =>
      Free spared (Expr.assignedAll codes) := by
  match args with
  | [] => exact .pure free_nil
  | [_] => exact .pure free_nil
  | target :: value :: rest =>
      rw [compileAssignments]
      refine .bind (.symbolArg _ _ _) fun id _ => ?_
      refine .bind (variablePlace_spares apart id) fun place freePlace => ?_
      refine .bind (compileSingle_spares forms apart _) fun code freeCode => ?_
      refine .bind (compileAssignments_spares forms apart rest) fun codes freeCodes => .pure ?_
      simp only [free_append] at freePlace
      simp [Expr.assignedAll, Expr.assigned, freePlace, freeCode, freeCodes]

theorem joinAssignments_spares (forms : SparesForms spared compile)
    (apart : Apart spared context.env) (args : List Value) :
    Codes spared (do
      match ← compileAssignments compile context form args with
      | [] => return .nil
      | [assignment] => return assignment
      | assignments => return .comma assignments) := by
  refine .bind (compileAssignments_spares forms apart args) fun codes free => ?_
  split
  · exact .pure free_nil
  · exact .pure (by simpa [Expr.assignedAll] using free)
  · exact .pure (by simpa [Expr.assigned] using free)

theorem compileSetq_spares (forms : SparesForms spared compile) (apart : Apart spared context.env)
    (args : List Value) :
    Codes spared (compileSetq compile context form args) := by
  unfold compileSetq
  have finish := @joinAssignments_spares _ _ _ form forms apart args
  split
  · exact .bind (.malformed (P := fun _ => True) _ _) fun _ _ => finish
  · exact finish

theorem compileThe_spares (forms : SparesForms spared compile) (apart : Apart spared context.env)
    (args : List Value) :
    Codes spared (compileThe compile context form args) := by
  refine .bind (.expectArgs _ _ _ _) fun _ _ => ?_
  split
  · exact forms context _ apart
  · exact .pure free_nil

end Assignments

section Binders

theorem parseBinding_spares (spec : Value) : Plain spared (parseBinding form spec) := by
  unfold parseBinding
  split
  · exact .bind (.symbolArg _ _ _) fun _ _ => .pure trivial
  · exact .bind (.symbolArg _ _ _) fun _ _ => .pure trivial
  · refine .bind (.listArg _ _ _) fun items _ => ?_
    split
    · exact .bind (.symbolArg _ _ _) fun _ _ => .pure trivial
    · exact .bind (.symbolArg _ _ _) fun _ _ => .pure trivial
    · exact .malformed _ _
  · exact .malformed _ _

theorem parseBindings_spares (list : Value) : Plain spared (parseBindings form context list) :=
  .bind (.listArg _ _ _) fun _ _ => Spares.plain (P := fun _ => True)
    ((Spares.mapM (P := fun _ => True) _ fun spec _ =>
      .bind (parseBinding_spares spec) fun _ _ =>
        .bind (checkBindable_spares _) fun _ _ => .pure trivial).plain)

theorem parseDefinitions_spares (list : Value) : Plain spared (parseDefinitions form list) := by
  refine .bind (.listArg _ _ _) fun items _ => ?_
  refine (Spares.mapM (P := fun _ => True) _ fun definition _ => ?_).plain
  refine .bind (.listArg _ _ _) fun parts _ => ?_
  split
  · exact .bind (.symbolArg _ _ _) fun _ _ => .pure trivial
  · exact .malformed _ _

theorem finishBinding_spares (forms : SparesForms spared compile) {prologue : Prologue}
    (spares : prologue.Spares spared) {env : Environment} (apart : Apart spared env) (body : Body)
    (bound : List SymbolId) :
    Codes spared (finishBinding compile context prologue env body bound) := by
  refine .bind (applyFreeDeclarations_spares apart _ _) fun env apart => ?_
  refine .bind (@compileBody_spares _ _ (context.withEnv env) forms apart _) fun stmts free => ?_
  refine .pure ?_
  rw [assigned_statementsExpr]
  exact spares.finish free

theorem define_free {host : String} {value : Expr} (free : Free spared value.assigned) :
    Free spared (Stmt.assignedAll [.define host value]) := by
  simpa [Stmt.assignedAll, Stmt.assigned] using free

theorem defineInits_spares (forms : SparesForms spared compile) (apart : Apart spared context.env)
    {prologue : Prologue} (spares : prologue.Spares spared) (inits : List (SymbolId × Value)) :
    Spares spared (defineInits compile context prologue inits) fun result =>
      result.1.Spares spared ∧ ∀ host ∈ result.2, ¬ spared host.2 := by
  induction inits generalizing prologue with
  | nil => exact .pure ⟨spares, nofun⟩
  | cons init rest ih =>
      obtain ⟨id, init⟩ := init
      rw [defineInits]
      refine .bind (.freshVariableFor id) fun host new => ?_
      refine .bind (compileSingle_spares forms apart _) fun value free => ?_
      refine .bind (ih (spares.add (define_free free))) fun result known => .pure ⟨known.1, ?_⟩
      exact List.forall_mem_cons.mpr ⟨new, known.2⟩

theorem bindHosts_spares {specials : List SymbolId} {head : Head} (spares : head.Spares spared)
    (hosts : List (SymbolId × String)) (new : ∀ host ∈ hosts, ¬ spared host.2) :
    Spares spared (bindHosts specials head hosts) (Head.Spares spared) := by
  induction hosts generalizing head with
  | nil => exact .pure spares
  | cons host rest ih =>
      obtain ⟨id, host⟩ := host
      rw [bindHosts]
      refine .bind (bindParameter_spares spares specials id (new _ List.mem_cons_self))
        fun head spares => ?_
      exact ih spares fun other member => new other (List.mem_cons_of_mem _ member)

theorem bindInits_spares (forms : SparesForms spared compile) {specials : List SymbolId}
    {head : Head} (spares : head.Spares spared) (inits : List (SymbolId × Value)) :
    Spares spared (bindInits compile context specials head inits) (Head.Spares spared) := by
  induction inits generalizing head with
  | nil => exact .pure spares
  | cons init rest ih =>
      obtain ⟨id, init⟩ := init
      rw [bindInits]
      refine .bind (.freshVariableFor id) fun host new => ?_
      refine .bind (compileSingle_spares forms spares.env _) fun value free => ?_
      exact .bind (bindParameter_spares (spares.add _ (define_free free)) specials id new)
        fun head spares => ih spares

theorem compileLet_spares (forms : SparesForms spared compile) (apart : Apart spared context.env)
    (args : List Value) :
    Codes spared (compileLet compile context form args) := by
  refine .bind (.expectArgs _ _ _ _) fun _ _ => ?_
  refine .bind (parseBindings_spares _) fun bindings _ => ?_
  refine .bind (parseBody_spares _ _) fun body _ => ?_
  refine .bind (defineInits_spares forms apart .empty bindings) fun result known => ?_
  obtain ⟨prologue, hosts⟩ := result
  refine .bind (bindHosts_spares ⟨apart, known.1⟩ hosts known.2) fun head spares => ?_
  exact finishBinding_spares forms spares.prologue spares.env _ _

theorem compileLetStar_spares (forms : SparesForms spared compile)
    (apart : Apart spared context.env) (args : List Value) :
    Codes spared (compileLetStar compile context form args) := by
  refine .bind (.expectArgs _ _ _ _) fun _ _ => ?_
  refine .bind (parseBindings_spares _) fun bindings _ => ?_
  refine .bind (parseBody_spares _ _) fun body _ => ?_
  refine .bind (bindInits_spares forms ⟨apart, .empty⟩ bindings) fun head spares => ?_
  exact finishBinding_spares forms spares.prologue spares.env _ _

theorem bindFunctions_spares {env : Environment} (apart : Apart spared env)
    (hosts : List (LocalDefinition × String)) (new : ∀ host ∈ hosts, ¬ spared host.2) :
    Spares spared (bindFunctions env hosts) (Apart spared) := by
  unfold bindFunctions
  induction hosts generalizing env with
  | nil => exact .pure apart
  | cons host rest ih =>
      obtain ⟨definition, host⟩ := host
      rw [List.foldlM_cons]
      refine .bind (P := Apart spared) ?_ fun env apart =>
        ih apart fun other member => new other (List.mem_cons_of_mem _ member)
      refine .bind (.newBinding _ _ _) fun binding reference => .pure (apart.cons fun name same => ?_)
      rw [reference] at same
      cases same
      exact new _ List.mem_cons_self

theorem compileLocalFunctions_spares (forms : SparesForms spared compile)
    (apart : Apart spared context.env) (recursive : Bool) (args : List Value) :
    Codes spared (compileLocalFunctions compile context recursive form args) := by
  refine .bind (.expectArgs _ _ _ _) fun _ _ => ?_
  refine .bind (parseDefinitions_spares _) fun definitions _ => ?_
  refine .bind (parseBody_spares _ _) fun body _ => ?_
  refine .bind (.mapM (P := fun host : LocalDefinition × String => ¬ spared host.2) _
    fun definition _ => .bind (.freshVariableFor definition.name) fun _ new => .pure new)
    fun hosts new => ?_
  refine .bind (bindFunctions_spares apart hosts new) fun inner apartInner => ?_
  have within : Apart spared
      (if recursive then context.withEnv inner else context : Context).env := by
    split
    · exact apartInner
    · exact apart
  dsimp only
  refine .bind (.mapM (P := fun stmt : Stmt => Free spared stmt.assigned) _ fun host _ => ?_)
    fun stmts free => ?_
  · obtain ⟨definition, host⟩ := host
    refine .bind (compileLambda_spares forms within _ _ _) fun function free => .pure ?_
    simpa [Stmt.assigned] using free
  · exact finishBinding_spares forms
      ⟨free_stmts.mpr free, fun _ _ member => absurd member List.not_mem_nil⟩ apartInner _ _

theorem compileLocally_spares (forms : SparesForms spared compile)
    (apart : Apart spared context.env) (items : List Value) :
    Codes spared (compileLocally compile context items) := by
  refine .bind (parseBody_spares _ _) fun body _ => ?_
  refine .bind (applyFreeDeclarations_spares apart _ _) fun env apart => ?_
  exact @compileProgn_spares _ _ (context.withEnv env) forms apart _

end Binders

section Macros

theorem expanderOf_spares (forms : SparesForms spared compile) (name whole : SymbolId)
    (lowered : Lowered) :
    Plain spared (expanderOf compile name whole lowered) := by
  refine .bind (.newCons _ _) fun list _ => .bind (.newList _) fun items _ => ?_
  refine .bind (.newListWithTail _ _) fun lambda _ => .bind (.newList _) fun function _ => ?_
  refine .bind (evalNow_spares forms _) fun value _ => ?_
  split
  · exact .pure trivial
  · exact .bind (.describe _) fun _ _ => .bind (.symbolName _) fun _ _ => .throw _

theorem makeExpander_spares (forms : SparesForms spared compile) (name : SymbolId)
    (lambdaList : Value) (body : List Value) :
    Plain spared (makeExpander compile name lambdaList body) := by
  refine .bind (.bind .heap fun _ _ => lowerWithin_spares _ _ _) fun lowered _ => ?_
  have finish := fun whole => expanderOf_spares forms name whole lowered
  dsimp only
  split
  · exact finish _
  · exact .bind (.onSymbols _) fun _ _ => finish _

theorem bindMacros_spares (forms : SparesForms spared compile) {env : Environment}
    (apart : Apart spared env) (definitions : List LocalDefinition) :
    Spares spared (bindMacros compile env definitions) (Apart spared) := by
  induction definitions generalizing env with
  | nil => exact .pure apart
  | cons definition rest ih =>
      rw [bindMacros]
      refine .bind (makeExpander_spares forms _ _ _) fun expander _ => ?_
      refine .bind (.newBinding _ _ _) fun binding reference => ih (apart.cons ?_)
      rw [reference]
      exact nofun

theorem compileMacrolet_spares (forms : SparesForms spared compile)
    (apart : Apart spared context.env) (args : List Value) :
    Codes spared (compileMacrolet compile context form args) := by
  refine .bind (.expectArgs _ _ _ _) fun _ _ => ?_
  refine .bind (parseDefinitions_spares _) fun definitions _ => ?_
  refine .bind (bindMacros_spares forms apart _) fun env apart => ?_
  exact @compileLocally_spares _ _ (context.withEnv env) forms apart _

end Macros

section Definitions

theorem Spares.orFail {step failure : Compile α} {P : α → Prop} (first : Spares spared step P)
    (second : Spares spared failure P) :
    Spares spared (orFail step failure) P := by
  intro s sparing
  have ends := first s sparing
  unfold Compiler.orFail
  cases ended : step s with
  | ok a s' =>
      rw [ended] at ends
      exact ends
  | error e s' =>
      rw [ended] at ends
      cases ends with
      | error leads sparing => exact (second s' sparing).after leads

theorem proclaim_spares (specs : DeclSpecs) : Plain spared (proclaim specs) := by
  have change : ∀ (space : Namespace) (set : Bindings → Binding → Bindings) (id : SymbolId),
      (∀ bindings binding, (set bindings binding).globals = bindings.globals) →
      Plain spared (do
        let binding ← onBindings (·.lookupGlobal id space)
        modifyBindings fun bindings => set bindings binding) := fun space set id same =>
    .bind (.lookupGlobal id space) fun binding _ =>
      .modifyBindings fun bindings => same bindings binding
  refine .bind (.forM _ fun id => change _ _ id fun _ _ => rfl) fun _ _ => ?_
  refine .bind (.forM _ fun id => change _ _ id fun _ _ => rfl) fun _ _ => ?_
  exact .forM _ fun id => change _ _ id fun _ _ => rfl

theorem compileDeclaim_spares (args : List Value) : Codes spared (compileDeclaim form args) := by
  refine .bind (.newList _) fun list _ => .bind (.newCons _ _) fun declaration _ => ?_
  refine .bind (.orFail (parseDeclaration_spares _ _) (.malformed _ _)) fun specs _ => ?_
  exact .bind (proclaim_spares specs) fun _ _ => .pure free_nil

theorem compileDefmacro_spares (forms : SparesForms spared compile) (args : List Value) :
    Codes spared ( compileDefmacro compile form args) := by
  refine .bind (.expectArgs _ _ _ _) fun _ _ => ?_
  split
  · refine .bind (.symbolArg _ _ _) fun id _ => ?_
    refine .bind (makeExpander_spares forms _ _ _) fun expander _ => ?_
    exact .bind (.define id .functions nofun) fun _ _ => (symbolLiteral_spares id).free
  · exact .pure free_nil

theorem compileDefconstant_spares (forms : SparesForms spared compile) (args : List Value) :
    Codes spared (compileDefconstant compile form args) := by
  refine .bind (.expectArgs _ _ _ _) fun _ _ => ?_
  split
  · refine .bind (.symbolArg _ _ _) fun id _ => .bind .symbols fun symbols _ => ?_
    rename_i init _ _ _
    have finish : Codes spared (do
        let value ← evalNow compile init
        let written ← literal value
        let binding ← onBindings (·.define id .vars (.constant value))
        modifyBindings (·.setConstant binding true)
        let cell ← symbolLiteral id
        return .comma [.assign (.member cell "value") written, cell]) := by
      refine .bind (evalNow_spares forms _) fun value _ => ?_
      refine .bind (literal_spares value) fun written emptyValue => ?_
      refine .bind (.define id .vars nofun) fun binding _ => ?_
      refine .bind (.modifyBindings fun _ => rfl) fun _ _ => ?_
      refine .bind (symbolLiteral_spares id) fun cell emptyCell => .pure ?_
      simp [Expr.assigned, Expr.assignedAll, Expr.named, emptyValue, emptyCell]
    dsimp only
    split
    · exact .bind (.symbolName id) fun _ _ => .bind (.throw (P := fun _ => True) _) fun _ _ => finish
    · exact finish
  · exact .pure free_nil

theorem compileEvalWhen_spares (forms : SparesForms spared compile)
    (apart : Apart spared context.env) (args : List Value) :
    Codes spared (compileEvalWhen compile context form args) := by
  refine .bind (.expectArgs _ _ _ _) fun _ _ => ?_
  refine .bind (.listArg _ _ _) fun situations _ => ?_
  dsimp only
  refine .bind (.newList _) fun items _ => .bind (.newCons _ _) fun body _ => ?_
  have finish : ∀ later : Bool, Codes spared
      (if later then compile context body else return .nil) := fun later => by
    split
    · exact forms context body apart
    · exact .pure free_nil
  split
  · exact .bind (evalNow_spares forms body) fun _ _ => finish _
  · exact finish _

end Definitions

section ManyValues

theorem appendBundles_spares (forms : SparesForms spared compile)
    (apart : Apart spared context.env) {arguments : Expr} (free : Free spared arguments.assigned)
    (items : List Value) :
    Codes spared (appendBundles compile context arguments items) := by
  induction items generalizing arguments with
  | nil => exact .pure free
  | cons item rest ih =>
      rw [appendBundles]
      refine .bind (compileBundle_spares forms apart item) fun bundle freeBundle => ih ?_
      simp [Expr.assignedAll, free, freeBundle]

theorem compileMultipleValueCall_spares (forms : SparesForms spared compile)
    (apart : Apart spared context.env) (args : List Value) :
    Codes spared (compileMultipleValueCall compile context form args) := by
  refine .bind (.expectArgs _ _ _ _) fun _ _ => ?_
  refine .bind (compileSingle_spares forms apart _) fun function freeFunction => ?_
  refine .bind (appendBundles_spares forms apart ?_ _) fun arguments free => .pure ?_
  · simp [Expr.assigned, Expr.assignedAll]
  · simp [Expr.assignedAll, freeFunction, free]

theorem compileMultipleValueProg1_spares (forms : SparesForms spared compile)
    (apart : Apart spared context.env) (args : List Value) :
    Codes spared (compileMultipleValueProg1 compile context form args) := by
  refine .bind (.expectArgs _ _ _ _) fun _ _ => ?_
  refine .bind (forms context _ apart) fun first free => ?_
  split
  · exact .pure free
  · refine .bind (.freshVariable _) fun result _ => ?_
    refine .bind (compileEffects_spares forms apart _) fun effects freeEffects => .pure ?_
    simp [Stmt.assignedAll, Stmt.assigned, Expr.assigned, free, freeEffects]

end ManyValues

section Exits

theorem intercept_free {block handler : List Stmt} {kind : TransferKind} {target : String}
    (freeBlock : Free spared (Stmt.assignedAll block))
    (freeHandler : Free spared (Stmt.assignedAll handler)) :
    Free spared (intercept block kind (.ident target) handler).assigned := by
  simp [intercept, matchesSignal, signal, Stmt.assigned, Stmt.assignedAll, Handler.assigned,
    Cleanup.assigned, Expr.assigned, freeBlock, freeHandler]

theorem raiseTransfer_free {kind : TransferKind} {target : String} {payload : Expr} {label : String}
    (free : Free spared payload.assigned) :
    Free spared (raiseTransfer kind (.ident target) payload (.string label)).assigned := by
  simp [raiseTransfer, transferExpr, Stmt.assigned, Stmt.assignedAll, Expr.assigned,
    Expr.assignedAll, free]

theorem blockName_spares (name : Value) : Plain spared (blockName form name) := by
  unfold blockName
  split
  · exact .pure trivial
  · exact .malformed _ _

theorem compileBlock_spares (forms : SparesForms spared compile) (apart : Apart spared context.env)
    (args : List Value) :
    Codes spared (compileBlock compile context form args) := by
  unfold compileBlock
  split
  · exact .malformed _ _
  · refine .bind (blockName_spares _) fun name _ => .bind .freshBlock fun token _ => ?_
    refine .bind (.newBinding _ _ _) fun binding reference => ?_
    have inner : Apart spared (context.withEnv (binding :: context.env)).env :=
      apart.cons fun name host => by
        rw [reference] at host
        cases host
    refine .bind (compileBody_spares forms inner _) fun stmts free => ?_
    refine .bind (.declared _) fun declarations _ => ?_
    split
    · exact .pure (by rwa [assigned_statementsExpr])
    · refine .pure ?_
      simp only [assigned_wrap, Stmt.assignedAll, List.append_nil, free_append]
      refine ⟨by simp [Stmt.assigned, Expr.assigned, Expr.assignedAll], intercept_free free ?_⟩
      split <;> simp [Stmt.assignedAll, Stmt.assigned, Expr.assignedAll, Expr.assigned,
        signalPayload, signal]

theorem leaveBlock_spares (forms : SparesForms spared compile)
    (apart : Apart spared context.env) (args : List Value) :
    Codes spared (do
      let name ← blockName form (args.headD .nil)
      match context.env.lookup? (.ofSymbol name) .blocks with
      | none => throw (.unknownBlock (← symbolName name))
      | some binding => do
          markUsed binding
          match binding.reference with
          | .block token manyValues => do
              let value := args.tail.headD .nil
              let payload ← if manyValues then compileBundle compile context value
                else compileSingle compile context value
              return raiseTransfer .block (.ident token) payload (.string (← symbolName name))
          | _ => throw (.unknownBlock (← symbolName name))) := by
  refine .bind (blockName_spares _) fun name _ => ?_
  split
  · exact .bind (.symbolName _) fun _ _ => .throw _
  · refine .bind (.markUsed _) fun _ _ => ?_
    split
    · dsimp only
      split
      · exact .bind (compileBundle_spares forms apart _) fun payload free =>
          .bind (.symbolName _) fun _ _ => .pure (raiseTransfer_free free)
      · exact .bind (compileSingle_spares forms apart _) fun payload free =>
          .bind (.symbolName _) fun _ _ => .pure (raiseTransfer_free free)
    · exact .bind (.symbolName _) fun _ _ => .throw _

theorem compileReturnFrom_spares (forms : SparesForms spared compile)
    (apart : Apart spared context.env) (args : List Value) :
    Codes spared (compileReturnFrom compile context form args) := by
  unfold compileReturnFrom
  have finish := @leaveBlock_spares _ _ _ form forms apart args
  split
  · exact .bind (.malformed (P := fun _ => True) _ _) fun _ _ => finish
  · exact finish

theorem compileCatch_spares (forms : SparesForms spared compile) (apart : Apart spared context.env)
    (args : List Value) :
    Codes spared (compileCatch compile context form args) := by
  unfold compileCatch
  split
  · exact .malformed _ _
  · refine .bind (.freshVariable _) fun host _ => ?_
    refine .bind (compileSingle_spares forms apart _) fun tag freeTag => ?_
    refine .bind (compileBody_spares forms apart _) fun stmts free => .pure ?_
    simp only [assigned_wrap, Stmt.assignedAll, List.append_nil, free_append]
    refine ⟨freeTag, intercept_free free ?_⟩
    simp [Stmt.assignedAll, Stmt.assigned, Expr.assignedAll, Expr.assigned, signalPayload, signal]

theorem compileThrow_spares (forms : SparesForms spared compile) (apart : Apart spared context.env)
    (args : List Value) :
    Codes spared (compileThrow compile context form args) := by
  unfold compileThrow
  split
  · refine .bind (.freshVariable _) fun host _ => ?_
    refine .bind (compileSingle_spares forms apart _) fun tag freeTag => ?_
    refine .bind (compileBundle_spares forms apart _) fun bundle free => .pure ?_
    simp [transferExpr, Stmt.assignedAll, Stmt.assigned, Expr.assignedAll, Expr.assigned, freeTag,
      free]
  · exact .malformed _ _

theorem isTag_spares (item : Value) : Plain spared (isTag form item) := by
  unfold isTag
  split
  · exact .pure trivial
  · exact .pure trivial
  · exact .pure trivial
  · exact .pure trivial
  · exact .bind (.describe _) fun _ _ => .malformed _ _

theorem bindTags_spares (token : String) (tags : List Value) :
    Spares spared (bindTags token tags) fun bound =>
      ∀ tag ∈ bound, ∀ name, tag.2.reference ≠ .host name := by
  induction tags with
  | nil => exact .pure (List.forall_mem_nil _)
  | cons tag rest ih =>
      rw [bindTags]
      refine .bind .freshTag fun label _ => .bind (.newBinding _ _ _) fun binding reference => ?_
      refine .bind ih fun bound known => .pure ?_
      refine List.forall_mem_cons.mpr ⟨fun name host => ?_, known⟩
      rw [reference] at host
      cases host

theorem Apart.tags {env : Environment} (apart : Apart spared env) {tags : List (Nat × Binding)}
    (known : ∀ tag ∈ tags, ∀ name, tag.2.reference ≠ .host name) :
    Apart spared ((tags.map Prod.snd).reverse ++ env) := by
  rintro name ⟨binding, member, host⟩
  rcases List.mem_append.mp member with member | member
  · obtain ⟨tag, inside, rfl⟩ := List.mem_map.mp (List.mem_reverse.mp member)
    exact absurd host (known tag inside name)
  · exact apart name ⟨binding, member, host⟩

theorem free_flatten {bodies : List (List Stmt)}
    (free : ∀ body ∈ bodies, Free spared (Stmt.assignedAll body)) :
    Free spared (Stmt.assignedAll bodies.flatten) := by
  rw [free_stmts]
  intro stmt member
  obtain ⟨body, inside, member⟩ := List.mem_flatten.mp member
  exact free_stmts.mp (free body inside) stmt member

theorem compileTagged_spares (forms : SparesForms spared compile)
    (apart : Apart spared context.env) (leading : List Value)
    (segments : List (Value × List Value)) :
    Codes spared (compileTagged compile context leading segments) := by
  unfold compileTagged
  refine .bind .freshTagbody fun names _ => ?_
  obtain ⟨token, loopLabel⟩ := names
  dsimp only
  have finish : ∀ (sections : List (List Value)) (start : List Nat), Codes spared (do
      let tags ← bindTags token (segments.map Prod.fst)
      let inner := context.withEnv ((tags.map Prod.snd).reverse ++ context.env)
      let labels := start ++ tags.map Prod.fst
      let bodies ← sections.mapM fun forms => do
        return (← compileArgs compile inner forms).map Stmt.effect
      let isUsed ← tags.anyM fun tag => do return (← declared tag.2).used
      if !isUsed then return statementsExpr (bodies.flatten ++ [.ret .nil])
      let branch ← freshVariable "branch"
      let cases := (labels.zip bodies).map fun item => Case.case (labelExpr item.1) item.2
      let turn := intercept [.select (.ident branch) cases, .leave (some loopLabel)]
        .tagbody (.ident token) [.effect (.assign (.ident branch) signalPayload)]
      return .wrap [.define token (.array []), .define branch (labelExpr (labels.headD 0)),
        .loop (some loopLabel) (.bool true) [turn], .ret .nil]) := fun sections start => by
    refine .bind (bindTags_spares token _) fun tags known => ?_
    have inner := apart.tags known
    dsimp only
    refine .bind (.mapM (P := fun body : List Stmt => Free spared (Stmt.assignedAll body)) _
      fun items _ => ?_) fun bodies free => ?_
    · refine .bind (@compileArgs_spares _ _ (context.withEnv _) forms inner items)
        fun codes free => .pure ?_
      rwa [Stmt.assignedAll_effects]
    refine .bind (.anyM _ fun _ => .bind (.declared _) fun _ _ => .pure trivial) fun used _ => ?_
    split
    · refine .pure ?_
      simp [Stmt.assignedAll, Stmt.assigned, Expr.nil, Expr.assigned, free_flatten free]
    · refine .bind (.freshVariable _) fun branch new => .pure ?_
      have cases_ : Free spared (Case.assignedAll ((start ++ tags.map Prod.fst).zip bodies |>.map
          fun item => Case.case (labelExpr item.1) item.2)) := by
        rw [free_cases]
        intro case_ member
        obtain ⟨⟨label, body⟩, inside, rfl⟩ := List.mem_map.mp member
        simpa [Case.assigned, labelExpr, Expr.assigned] using free body (List.of_mem_zip inside).2
      have turn : Free spared (intercept [.select (.ident branch)
          ((start ++ tags.map Prod.fst).zip bodies |>.map
            fun item => Case.case (labelExpr item.1) item.2), .leave (some loopLabel)]
          .tagbody (.ident token) [.effect (.assign (.ident branch) signalPayload)]).assigned :=
        intercept_free (by simpa [Stmt.assignedAll, Stmt.assigned, Expr.assigned] using cases_)
          (by simp [Stmt.assignedAll, Stmt.assigned, Expr.assigned, Expr.named, signalPayload,
            signal, new])
      simpa [Stmt.assignedAll, Stmt.assigned, Expr.assigned, Expr.assignedAll, labelExpr, Expr.nil]
        using turn
  split
  · exact .bind (.pure (P := fun _ => True) trivial) fun start _ => finish _ start
  · refine .bind .freshTag fun start _ => ?_
    exact .bind (.pure (P := fun _ => True) trivial) fun start _ => finish _ start

theorem compileTagbody_spares (forms : SparesForms spared compile)
    (apart : Apart spared context.env) (args : List Value) :
    Codes spared (compileTagbody compile context form args) := by
  refine .bind (.mapM (P := fun _ => True) _ fun item _ =>
    .bind (isTag_spares item) fun _ _ => .pure trivial) fun items _ => ?_
  split
  · exact compileProgn_spares forms apart _
  · exact compileTagged_spares forms apart _ _

theorem compileGo_spares (args : List Value) : Codes spared (compileGo context form args) := by
  unfold compileGo
  split
  · split
    · exact .bind (.describe _) fun _ _ => .throw _
    · refine .bind (.markUsed _) fun _ _ => ?_
      split
      · exact .bind (.describe _) fun _ _ => .pure (raiseTransfer_free free_nil)
      · exact .bind (.describe _) fun _ _ => .throw _
  · exact .malformed _ _

theorem compileUnwindProtect_spares (forms : SparesForms spared compile)
    (apart : Apart spared context.env) (args : List Value) :
    Codes spared (compileUnwindProtect compile context form args) := by
  unfold compileUnwindProtect
  split
  · exact .malformed _ _
  · refine .bind (forms context _ apart) fun value free => ?_
    split
    · exact .pure free
    · refine .bind (compileEffects_spares forms apart _) fun effects freeEffects => .pure ?_
      simp [Stmt.assignedAll, Stmt.assigned, Handler.assigned, Cleanup.assigned, free, freeEffects]

end Exits

section Inline

theorem inlineFold_free (op : BinaryOp) {args : List Expr}
    (free : Free spared (Expr.assignedAll args)) :
    Free spared (inlineFold op args).assigned := by
  have fold : ∀ (rest : List Expr) (arg : Expr), Free spared arg.assigned →
      Free spared (Expr.assignedAll rest) →
      Free spared (rest.foldl (Expr.binary op) arg).assigned := by
    intro rest
    induction rest with
    | nil => exact fun arg free _ => free
    | cons other rest ih =>
        intro arg free freeRest
        simp only [Expr.assignedAll, free_append] at freeRest
        exact ih _ (by simp [Expr.assigned, free, freeRest]) freeRest.2
  unfold inlineFold
  cases args with
  | nil => simp [Expr.assigned]
  | cons arg rest =>
      cases rest with
      | nil =>
          simp only [Expr.assignedAll, List.append_nil] at free
          dsimp only
          split <;> simp [Expr.assigned, free]
      | cons other rest =>
          simp only [Expr.assignedAll, free_append] at free
          exact fold _ arg free.1 (by simp [Expr.assignedAll, free])

theorem inlineCall_free (p : Primitive) {args : List Expr} {acceptor : Expr}
    (free : Free spared (Expr.assignedAll args)) (freeAcceptor : Free spared acceptor.assigned) :
    Free spared (inlineCall p args acceptor).assigned := by
  unfold inlineCall
  split
  · exact inlineFold_free _ free
  · split
    · simpa [lispTruth, Expr.assigned, Expr.assignedAll, Expr.t, Expr.nil] using free
    · split
      · simpa [Expr.assigned, Expr.assignedAll] using free
      · simpa [Expr.assigned, Expr.assignedAll] using free
      · simpa [lispTruth, Expr.assigned, Expr.assignedAll, Expr.t, Expr.nil] using free
      · simpa [lispTruth, Expr.assigned, Expr.assignedAll, Expr.t, Expr.nil] using free
      · simp [Expr.assigned, free, freeAcceptor]
      · split <;> simp [Expr.assignedAll, free, freeAcceptor]

end Inline

section Steps

theorem compileSpecial_spares (forms : SparesForms spared compile)
    (apart : Apart spared context.env) (special : SpecialForm) (args : List Value) :
    Codes spared (compileSpecial compile context special form args) := by
  cases special with
  | quote => exact .bind (.expectArgs _ _ _ _) fun _ _ => (literal_spares _).free
  | function =>
      exact .bind (.expectArgs _ _ _ _) fun _ _ => functionReference_spares forms apart _
  | conditional => exact compileIf_spares forms apart args
  | progn => exact compileProgn_spares forms apart args
  | setq => exact compileSetq_spares forms apart args
  | bind => exact compileLet_spares forms apart args
  | bindInOrder => exact compileLetStar_spares forms apart args
  | flet => exact compileLocalFunctions_spares forms apart _ args
  | labels => exact compileLocalFunctions_spares forms apart _ args
  | macrolet => exact compileMacrolet_spares forms apart args
  | locally => exact compileLocally_spares forms apart args
  | typed => exact compileThe_spares forms apart args
  | evalWhen => exact compileEvalWhen_spares forms apart args
  | declaim => exact compileDeclaim_spares args
  | macroDefinition => exact compileDefmacro_spares forms args
  | constantDefinition => exact compileDefconstant_spares forms args
  | backquote =>
      exact .bind (.expectArgs _ _ _ _) fun _ _ =>
        .bind (expandBackquote_spares _) fun expansion _ => forms context expansion apart
  | unquote => exact .bind (.describe _) fun _ _ => .throw _
  | unquoteSplicing => exact .bind (.describe _) fun _ _ => .throw _
  | multipleValueCall => exact compileMultipleValueCall_spares forms apart args
  | multipleValueProg1 => exact compileMultipleValueProg1_spares forms apart args
  | block => exact compileBlock_spares forms apart args
  | returnFrom => exact compileReturnFrom_spares forms apart args
  | catching => exact compileCatch_spares forms apart args
  | throwing => exact compileThrow_spares forms apart args
  | tagbody => exact compileTagbody_spares forms apart args
  | go => exact compileGo_spares args
  | unwindProtect => exact compileUnwindProtect_spares forms apart args

theorem inlinable?_spares (binding : Binding) (id : SymbolId) (count : Nat) :
    Plain spared (inlinable? binding id count) := by
  refine .bind (.declared _) fun declarations _ => ?_
  split
  · exact .pure trivial
  · exact .pure trivial

theorem compileNamed_spares (forms : SparesForms spared compile) (apart : Apart spared context.env)
    (id : SymbolId) (args : List Value) :
    Codes spared (compileNamed compile context form id args) := by
  unfold compileNamed
  split
  · exact functionReference_spares forms apart _
  · split
    · exact compileSpecial_spares forms apart _ _
    · refine .bind (.resolve _ _ _) fun binding? _ => ?_
      split
      · exact .bind (.describe _) fun _ _ => .throw _
      · refine .bind (.markUsed _) fun _ _ => ?_
        split
        · exact .bind (callExpander_spares _ _ _) fun expansion _ => forms context expansion apart
        · exact compileCall_spares forms apart free_nil _
        · refine .bind (inlinable?_spares _ _ _) fun p? _ => ?_
          split
          · refine .bind (compileArgs_spares forms apart _) fun codes free => .pure ?_
            exact inlineCall_free _ free (by simp)
          · exact .bind (globalFunction_spares id) fun callee free =>
              compileCall_spares forms apart free _
        · exact .bind (.describe _) fun _ _ => .throw _

theorem compileStep_spares (forms : SparesForms spared compile) (apart : Apart spared context.env) :
    Codes spared (compileStep compile context form) := by
  unfold compileStep
  split
  · exact compileSymbol_spares _
  · refine .bind .heap fun heap _ => .bind (.restItems? _) fun args? _ => ?_
    split
    · exact .malformed _ _
    · split
      · exact compileNamed_spares forms apart _ _
      · refine .bind (isLambdaExpression_spares _) fun found _ => ?_
        split
        · exact .bind (functionReference_spares forms apart _) fun callee free =>
            compileCall_spares forms apart free _
        · exact .bind (.describe _) fun _ _ => .throw _
  · exact (literal_spares _).free

end Steps

end Forms

/-- The code of a form assigns to no variable whose name was made before, unless the form stands
where the variable is known. -/
theorem compileWithin_spares (depth : Nat) : SparesForms spared (compileWithin depth) := by
  induction depth with
  | zero => exact fun _ _ _ => .throw _
  | succ depth ih => exact fun context form apart => compileStep_spares ih apart

end LispScript.Compiler
