import LispScript.Proofs.Afterwards
import LispScript.Proofs.DynamicBindings
import LispScript.Proofs.NamedBodies

/-!
The expanders of macros. A macro lambda list and a body become a function of the whole form and of its
arguments, and the body of this function is reached with all variables bound to the parts of the form
that stand in their places.
-/

namespace LispScript

open Script Compiler Machine Discipline

variable {s t u : CompileState} {value : Value} {body : List Value} {whole : Option SymbolId}
  {name : SymbolId} {depth : Nat} {expander form : Value}

section Forms

/-- The form of the function with the given variable for the whole form. -/
def namedLambdaForm (name whole : SymbolId) (lowered : Lowered) : Compile Value := do
  let list ← newCons (.ofSymbol whole) lowered.list
  let lambda ← newListWithTail [.symbol SymbolId.namedLambda, .ofSymbol name, list]
    (← newList lowered.body)
  newList [.symbol SymbolId.function, lambda]

/-- The form that an expander is compiled from. -/
def expanderForm (name : SymbolId) (lambdaList : Value) (body : List Value) : Compile Value := do
  let lowered ← lowerLambdaList lambdaList body
  let whole ← match lowered.whole with
    | some var => pure var
    | none => onSymbols (·.gensym "WHOLE")
  namedLambdaForm name whole lowered

end Forms

section Making

variable {α : Type} {Reads : List Value → α → Prop} {p : Pattern α}

/-- The form that an expander is compiled from, `(FUNCTION (NAMED-LAMBDA name (var . items) . forms))`:
the items and the forms are what a macro lambda list and a body are lowered to. -/
structure ExpanderForm (Reads : List Value → α → Prop) (value : Value) (body : List Value)
    (whole : Option SymbolId) (p : Pattern α) (name : SymbolId) (s : CompileState) (form : Value)
    (t : CompileState) where
  lists : Pattern (List Value)
  var : SymbolId
  forms : List Value
  list : Value
  lambda : Value
  assembles : Assembles s t
  sparing : Sparing (· = "values") s → Sparing (· = "values") t
  isMacroList : IsMacroList s.image.heap Eq value whole lists
  along : lists.Along Reads p
  spreads : Spreads t.image.heap lists body forms
  distinct : lists.params.Nodup
  new : ∀ id ∈ lists.params, IsNew s.image.symbols.symbolCount t.image.symbols id
  is_var : ∀ id ∈ whole, id = var
  fresh : whole = none → IsNew s.image.symbols.symbolCount t.image.symbols var ∧ var ∉ lists.params
  items : t.image.heap.Spine list (.ofSymbol var :: lists.items) .nil
  lambda_ : t.image.heap.Spine lambda
    (.symbol SymbolId.namedLambda :: .ofSymbol name :: list :: forms) .nil
  function_ : t.image.heap.Spine form [.symbol SymbolId.function, lambda] .nil

theorem newCons_ok {car cdr cons : Value} {items : List Value} {tail : Value}
    (spine : s.image.heap.Spine cdr items tail) (ok : newCons car cdr s = .ok cons t) :
    Assembles s t ∧ t.image.heap.Spine cons (car :: items) tail := by
  have ok : newListWithTail [car] cdr s = .ok cons t := ok
  obtain ⟨assembles, heads⟩ := newListWithTail_ok ok
  exact ⟨assembles, heads.append (spine.kept assembles.heap)⟩

/-- Once the variable for the whole form is there, the form of the expander is made and evaluated. -/
theorem expanderForm_ok {lowered : Lowered} {lists : Pattern (List Value)} {s₁ s₂ : CompileState}
    {var : SymbolId} (lowersTo : LowersTo s.image.heap Reads value body p s lowered s₁ lists)
    (spares₁ : Sparing (· = "values") s → Sparing (· = "values") s₁) (assembles₂ : Assembles s₁ s₂)
    (spares₂ : Sparing (· = "values") s₁ → Sparing (· = "values") s₂)
    (is_var : ∀ id ∈ lowered.whole, id = var)
    (fresh : lowered.whole = none → IsNew s₁.image.symbols.symbolCount s₂.image.symbols var)
    (ok : expanderOf (compileWithin depth) name var lowered s₂ = .ok expander t) :
    ∃ form u, namedLambdaForm name var lowered s₂ = .ok form u ∧
      Nonempty (ExpanderForm Reads value body lowered.whole p name s form u) ∧
      evalNow (compileWithin depth) form u = .ok expander t := by
  obtain ⟨list, s₃, list_, ok⟩ := ok_of_bind ok
  obtain ⟨forms, s₄, forms_, ok⟩ := ok_of_bind ok
  obtain ⟨lambda, s₅, lambda_, ok⟩ := ok_of_bind ok
  obtain ⟨form, s₆, form_, ok⟩ := ok_of_bind ok
  obtain ⟨result, s₇, evaluated, ok⟩ := ok_of_bind ok
  have formed : namedLambdaForm name var lowered s₂ = .ok form s₆ := by
    rw [namedLambdaForm, bind_ended list_, bind_ended forms_, bind_ended lambda_]
    exact form_
  have spares₆ := fun (sparing : Sparing (· = "values") s₂) =>
    have third := (Sparing.after (.newCons _ _) sparing list_).2
    have fourth := (Sparing.after (.newList _) third forms_).2
    have fifth := (Sparing.after (.newListWithTail _ _) fourth lambda_).2
    (Sparing.after (.newList _) fifth form_).2
  obtain ⟨assembles₃, list_⟩ := newCons_ok (lowersTo.items.kept assembles₂.heap) list_
  obtain ⟨assembles₄, forms_⟩ := newList_ok forms_
  obtain ⟨assembles₅, lambda_⟩ := newListWithTail_ok lambda_
  obtain ⟨assembles₆, form_⟩ := newList_ok form_
  have until₃ := assembles₂.trans assembles₃
  have beyond := (assembles₄.trans assembles₅).trans assembles₆
  refine ⟨form, s₆, formed, ⟨⟨lists, var, lowered.body, list, lambda,
    lowersTo.assembles.trans (until₃.trans beyond),
    fun sparing => spares₆ (spares₂ (spares₁ sparing)), lowersTo.isMacroList, lowersTo.along,
    lowersTo.spreads.kept (until₃.trans beyond).heap, lowersTo.distinct,
    fun id member => (lowersTo.new id member).gains (until₃.trans beyond).symbols, is_var,
    fun none_ => ⟨?_, fun member => ?_⟩, list_.kept beyond.heap, ?_, form_⟩⟩, ?_⟩
  · exact ((fresh none_).fewer lowersTo.assembles.symbols.count).gains
      (assembles₃.trans beyond).symbols
  · exact Nat.not_le_of_lt (lowersTo.new _ member).known (fresh none_).new
  · exact (lambda_.append (forms_.kept assembles₅.heap)).kept assembles₆.heap
  · cases result with
    | function address =>
        cases ok
        exact evaluated
    | _ =>
        obtain ⟨_, _, -, ok⟩ := ok_of_bind ok
        obtain ⟨_, _, -, ok⟩ := ok_of_bind ok
        cases ok

/-- The expander is what a form gives that is evaluated while other forms are compiled. -/
theorem makeExpander_ok (isList : IsMacroList s.image.heap Reads value whole p)
    (ok : makeExpander (compileWithin depth) name value body s = .ok expander t) :
    ∃ form u, expanderForm name value body s = .ok form u ∧
      Nonempty (ExpanderForm Reads value body whole p name s form u) ∧
      evalNow (compileWithin depth) form u = .ok expander t := by
  obtain ⟨lowered, s₁, lowers, ok⟩ := ok_of_bind ok
  rw [expanderForm, bind_ended lowers]
  obtain ⟨_, _, ⟨⟩, lowers⟩ := ok_of_bind lowers
  have spares₁ := fun (sparing : Sparing (· = "values") s) =>
    (Sparing.after (lowerWithin_spares _ _ _) sparing lowers).2
  obtain ⟨rfl, lists, lowersTo⟩ := lowerWithin_ok s.image.heap Reads _ isList (.refl _) lowers
  dsimp only at ok
  cases whole : lowered.whole with
  | some var =>
      rw [whole] at ok
      obtain ⟨_, _, ⟨⟩, ok⟩ := ok_of_bind ok
      change ∃ form u, namedLambdaForm name var lowered s₁ = .ok form u ∧ _
      exact whole ▸ expanderForm_ok lowersTo spares₁ (.refl _) id (fun id is => by simp_all)
        (fun none_ => by simp_all) ok
  | none =>
      rw [whole] at ok
      obtain ⟨var, s₂, var_, ok⟩ := ok_of_bind ok
      obtain ⟨assembles, isNew⟩ := gensym_ok var_
      dsimp only
      rw [bind_ended var_]
      exact whole ▸ expanderForm_ok lowersTo spares₁ assembles
        (fun sparing => (Sparing.after (.onSymbols _) sparing var_).2) (fun id is => by simp_all)
        (fun _ => isNew) ok

end Making

section Compiling

variable {p q : Pattern LambdaList} {heap : Heap} {lists : Pattern (List Value)} {forms : List Value}
  {expr : Expr} {last : CompileState}

/-- A lambda list that begins with something else than a marker begins with a variable. -/
theorem Compiler.IsLambdaList.opened {table later : SymbolTable} {item : Value} {items : List Value}
    {more : Prop} {list : LambdaList} (plain : IsPlain item)
    (isList : IsLambdaList heap more table (item :: items) list later) : ∃ var, IsVariable item var := by
  obtain ⟨required, optional, rest, keys, split, isRequired, isOptional, isRest, isKeys⟩ := isList
  have marks : ∀ {marker : SymbolId} {others : List Value}, marker.isLambdaKeyword = true →
      item :: items ≠ .symbol marker :: others := by
    rintro marker others isKeyword same
    cases same
    simp [IsPlain, Value.asSymbol?, isKeyword] at plain
  generalize list.required = vars at isRequired
  cases isRequired with
  | nil =>
      exfalso
      generalize list.optional = params at isOptional
      generalize list.rest = var? at isRest
      generalize list.hasKeys = hasKeys, list.keys = keyParams, list.allowOtherKeys = allow at isKeys
      rcases isOptional with _ | _
      · rcases isRest with _ | ⟨rfl | rfl, _⟩
        · rcases isKeys with _ | _
          · cases split
          · exact marks (by decide) split
        · exact marks (by decide) split
        · exact marks (by decide) split
      · exact marks (by decide) split
  | @cons first var required vars isVar others =>
      cases split
      exact ⟨var, isVar⟩

/-- At top level there are no variables that a state would have to spare. -/
theorem Standing.ofSparing (sparing : Sparing (· = "values") s) : Standing .toplevel s where
  sparing := sparing
  known := by
    rintro _ ⟨_, ⟨⟩, -⟩

/-- What is known of the state in which a macro is defined. -/
structure Expansible (s : CompileState) : Prop where
  standing : Standing .toplevel s
  placed : s.bindings.Placed
  closed : s.image.heap.Closed
  /-- No name is declared to be that of a dynamic variable before it is there. -/
  unmade : ∀ id, ¬ s.image.symbols.HasSymbol id → (s.bindings.globalMeaning id .vars).special = false
  applies : AppliesBuiltin s []
  enough : SymbolId.apply.index < s.image.symbols.symbolCount

/-- A macro lambda list and a body: the variables are distinct and not dynamic, and the defaults
evaluate to themselves. -/
structure Destructures (s : CompileState) (value : Value) (body : List Value) (whole : Option SymbolId)
    (p : Pattern LambdaList) : Prop where
  isList : IsMacroList s.image.heap (ReadThere s.image.heap s.image.symbols) value whole p
  there : ∀ form ∈ body, s.image.heap.There form
  distinct : (whole.toList ++ p.vars).Nodup
  known : ∀ id ∈ whole.toList ++ p.vars, s.image.symbols.HasSymbol id
  lexical : ∀ id ∈ whole.toList ++ p.vars, (s.bindings.globalMeaning id .vars).special = false
  constant : ∀ form ∈ p.defaults, IsConstantForm s.image.symbols form
  declared : ∀ parsed, parseBody body true s = .ok parsed s → ∀ id ∈ parsed.declarations.specials,
    s.image.symbols.HasSymbol id ∧ id ∉ whole.toList ++ p.vars

theorem Compiler.Pattern.length_params {α : Type} (p : Pattern α) : p.params.length = p.count := by
  induction p with
  | others known => rfl
  | variable_ var rest ih => exact ih
  | sublist param whole inner rest inside others =>
      rw [params, count, List.length_cons, List.length_append, inside, others]

/-- Where sublists are spread, the body becomes a form that declares nothing. -/
theorem Compiler.Spreads.single (spreads : Spreads heap lists body forms) (some_ : 0 < lists.count) :
    ∃ form, forms = [form] ∧ IsPlainForm heap form := by
  induction spreads with
  | others => cases some_
  | variable_ _ _ ih => exact ih some_
  | sublist _ _ _ isSpread bindsWhole _ _ => exact ⟨_, rfl, bindsWhole.isPlain isSpread⟩

/-- The code of an expander: that of a function with a name, whose body leads to the given one. -/
structure ExpanderCode (body : List Value) (p q : Pattern LambdaList) (name : SymbolId) (heap : Heap)
    (s : CompileState) (expr : Expr) (last : CompileState) where
  rest : Nat
  list : LambdaList
  parsed : Body
  entry : LambdaEntry (rest + 1) .toplevel list parsed (some name) s expr last
  block : BlockParts rest { env := entry.env } name parsed.forms entry.body entry.last
  inner : Expr
  stmts_eq : entry.stmts = [.ret inner]
  inner_eq : inner = if block.used then block.code else statementsExpr block.stmts
  passes : Compiler.Passes heap body p q block.second (block.binding :: entry.env) block.stmts entry.last
  constant : ∀ form ∈ list.defaults, IsConstantForm entry.start.image.symbols form
  undeclared : ∀ id ∈ list.boundVars, id ∉ parsed.declarations.specials
  list_eq : q.list = list
  list_vars : list.boundVars = p.list.boundVars
  same : p.Along SameLists q
  distinct : (p.vars ++ p.params).Nodup

variable (expansible : Expansible s) (destructures : Destructures s value body whole p)
  (f : ExpanderForm (ReadThere s.image.heap s.image.symbols) value body whole p name s form u)

include expansible destructures

/-- The variable for the whole form is no marker. -/
theorem ExpanderForm.named : f.var.isLambdaKeyword = false := by
  rcases Option.eq_none_or_eq_some whole with whole_eq | ⟨id, whole_eq⟩
  · exact (f.fresh whole_eq).1.unmarked expansible.enough
  · obtain ⟨_, _, _, -, opens, -⟩ := destructures.isList
    rw [whole_eq] at opens
    cases opens with
    | present isVar => exact f.is_var id whole_eq ▸ isVar.named

/-- Parameters that were made for sublists are not dynamic, and neither is the variable for the whole
form. -/
theorem ExpanderForm.isLexical {r : Pattern LambdaList} (params : r.params = f.lists.params)
    (vars : r.vars = p.vars) :
    ∀ id ∈ (Pattern.variable_ f.var r).vars ++ (Pattern.variable_ f.var r).params,
      (s.bindings.globalMeaning id .vars).special = false := by
  have isNew : ∀ {id}, IsNew s.image.symbols.symbolCount u.image.symbols id →
      (s.bindings.globalMeaning id .vars).special = false := fun isNew =>
    expansible.unmade _ fun has => Nat.not_le_of_lt has isNew.new
  intro id member
  rcases List.mem_cons.mp member with rfl | member
  · rcases Option.eq_none_or_eq_some whole with whole_eq | ⟨id, whole_eq⟩
    · exact isNew (f.fresh whole_eq).1
    · refine f.is_var id whole_eq ▸ destructures.lexical id ?_
      simp [whole_eq]
  rcases List.mem_append.mp member with member | member
  · exact destructures.lexical id (List.mem_append_right _ (vars ▸ member))
  · exact isNew (f.new id (params ▸ member))

omit expansible in
/-- All that the function of an expander binds is distinct. -/
theorem ExpanderForm.nodup {r : Pattern LambdaList} (params : r.params = f.lists.params)
    (vars : r.vars = p.vars) :
    ((Pattern.variable_ f.var r).vars ++ (Pattern.variable_ f.var r).params).Nodup := by
  have old : ∀ id ∈ whole.toList ++ p.vars, ∀ {other},
      IsNew s.image.symbols.symbolCount u.image.symbols other → other ≠ id :=
    fun id member other isNew same =>
      Nat.not_le_of_lt (destructures.known id member) (same ▸ isNew.new)
  obtain ⟨-, nodup, apart⟩ := List.nodup_append.mp destructures.distinct
  change (f.var :: r.vars ++ r.params).Nodup
  rw [vars, params, List.cons_append, List.nodup_cons]
  refine ⟨fun member => ?_, nodup.append f.distinct fun id first second =>
    old id (List.mem_append_right _ first) (f.new id second) rfl⟩
  rcases Option.eq_none_or_eq_some whole with whole_eq | ⟨id, whole_eq⟩
  · rcases List.mem_append.mp member with member | member
    · exact old _ (List.mem_append_right _ member) (f.fresh whole_eq).1 rfl
    · exact (f.fresh whole_eq).2 member
  · have inside : id ∈ whole.toList := by simp [whole_eq]
    rw [← f.is_var id whole_eq] at member
    rcases List.mem_append.mp member with member | member
    · exact apart id inside id member rfl
    · exact old id (List.mem_append_left _ inside) (f.new id member) rfl

/-- However the body is read later, it declares none of these. -/
theorem ExpanderForm.declaresNone {r : Pattern LambdaList} (params : r.params = f.lists.params)
    (vars : r.vars = p.vars) :
    DeclaresNone u.image.heap body
      ((Pattern.variable_ f.var r).vars ++ (Pattern.variable_ f.var r).params) := by
  intro parsed later later' read keeps id member declared
  obtain ⟨before, -⟩ := parseBody_before expansible.closed (f.assembles.heap.trans keeps)
    destructures.there parsed later' read
  obtain ⟨has, free⟩ := destructures.declared parsed before id declared
  have notNew : ¬ IsNew s.image.symbols.symbolCount u.image.symbols id :=
    fun isNew => Nat.not_le_of_lt has isNew.new
  rcases List.mem_cons.mp member with rfl | member
  · rcases Option.eq_none_or_eq_some whole with whole_eq | ⟨id, whole_eq⟩
    · exact notNew (f.fresh whole_eq).1
    · refine free (List.mem_append_left _ ?_)
      rw [← f.is_var id whole_eq, whole_eq]
      exact List.mem_singleton_self id
  rcases List.mem_append.mp member with member | member
  · exact free (List.mem_append_right _ (vars ▸ member))
  · exact notNew (f.new id (params ▸ member))

omit destructures in
include f in
theorem ExpanderForm.situated : Situated (startUnit u) [] := by
  obtain ⟨⟨heap, symbols, same⟩, -, -⟩ := f.assembles
  have sparing := f.sparing expansible.standing.sparing
  have standing := Standing.ofSparing sparing
  have placed : u.bindings.Placed := same ▸ expansible.placed
  have start := sparing_startUnit sparing
  refine ⟨⟨placed, fun _ member => absurd member List.not_mem_nil, start.bounded, fun _ _ named => ?_⟩,
    start, apart_nil, fun _ member => absurd member List.not_mem_nil, ⟨[], tabled_startUnit standing⟩⟩
  simp [startUnit] at named

/-- Behind the variables of the function and the block around its body, the sublists can be spread. -/
theorem ExpanderForm.stage {r : Pattern LambdaList} {list : LambdaList} {parsed : Body} {rest : Nat}
    (e : LambdaEntry (rest + 1) .toplevel list parsed (some name) (startUnit u) expr last)
    (block : BlockParts rest { env := e.env } name parsed.forms e.body e.last)
    (params : r.params = f.lists.params) (vars : r.vars = p.vars)
    (list_vars : list.boundVars = (Pattern.variable_ f.var r).list.boundVars)
    (undeclared : ∀ id ∈ list.boundVars, id ∉ parsed.declarations.specials)
    (plain : 0 < (Pattern.variable_ f.var r).count → parsed.declarations = {}) :
    Stage s u.image.heap s.image.symbols.symbolCount (.variable_ f.var r) block.second
      (block.binding :: e.env) := by
  have bindings_eq : (startUnit u).bindings = s.bindings := by
    obtain ⟨⟨_, _, same⟩, -, -⟩ := f.assembles
    rw [same, startUnit]
  have declared : Situated e.body ({ env := e.env } : Context).env := e.situated.declared e.applied
  obtain ⟨widens, inside⟩ := block.situated declared
  have toBlock := e.declares.1.trans widens.proceeds
  have proceeds := (e.begins.proceeds.trans e.widens.proceeds).trans toBlock
  refine ⟨inside, fun some_ => ?_, proceeds.heap, f.assembles.symbols.trans proceeds.symbols,
    fun id member => IsNew.kept (s := startUnit u) (f.new id (params ▸ member)) proceeds.later,
    fun id member => ⟨List.not_mem_nil, ?_⟩, fun id member => ?_⟩
  · -- A body that declares nothing is entered in the environment of the function.
    have none_ : applyFreeDeclarations e.head.env {} list.boundVars e.bound =
        .ok e.head.env e.bound := rfl
    have applied := e.applied
    rw [plain some_] at applied
    obtain ⟨env_eq, body_eq⟩ := EStateM.Result.ok.inj (none_.symm.trans applied)
    have applies : AppliesBuiltin (startUnit u) [] := by
      rw [AppliesBuiltin, bindings_eq]
      exact expansible.applies
    have applies : AppliesBuiltin e.bound e.head.env := (applies.later e.begins).later e.widens
    rw [env_eq, body_eq] at applies
    exact applies.later widens
  · rw [proceeds.bindings.globalMeaning (f.situated expansible).ready.placed, bindings_eq]
    exact f.isLexical expansible destructures params vars id member
  · have member : id ∈ list.boundVars := list_vars ▸ Pattern.tops_bound _ member
    obtain ⟨host, isHost, isMade⟩ := e.binds.areHosts id member
    exact ⟨host, (widens.isHost List.not_mem_nil).mpr
      (isHost.declared e.situated.ready e.applied (undeclared id member)),
      isMade.ever.left toBlock.counters⟩

/-- An expander is compiled. -/
theorem ExpanderForm.compiles (ok : compileWithin depth .toplevel form (startUnit u) = .ok expr last) :
    ∃ q r, f.lists.Along (ReadSince s) q ∧ r.params = f.lists.params ∧ p.Along Eq r ∧
      Nonempty (ExpanderCode body (.variable_ f.var r) (.variable_ f.var q) name u.image.heap (startUnit u)
        expr last) := by
  obtain ⟨r, along, params, sameAs⟩ := f.along.rename
  have sameLists : p.Along SameLists r := sameAs.imp fun _ _ same => same ▸ .refl _
  have vars := sameLists.vars_eq
  have bindings_eq : (startUnit u).bindings = s.bindings := by
    obtain ⟨⟨_, _, same⟩, -, -⟩ := f.assembles
    rw [same, startUnit]
  have named := f.named expansible destructures
  have situated : Situated (startUnit u) Context.toplevel.env := f.situated expansible
  have noneBody := f.declaresNone expansible destructures params vars
  have distinct := f.nodup destructures params vars
  have spreads : Spreads u.image.heap (.variable_ f.var f.lists) body f.forms := .variable_ _ f.spreads
  cases depth with
  | zero => cases ok
  | succ depth =>
      have function_ : (startUnit u).image.heap.Spine form [.symbol SymbolId.function, f.lambda] .nil :=
        f.function_
      have lambda_ : (startUnit u).image.heap.Spine f.lambda
          (.symbol SymbolId.namedLambda :: .ofSymbol name :: f.list :: f.forms) .nil := f.lambda_
      have items : (startUnit u).image.heap.Spine f.list (.ofSymbol f.var :: f.lists.items) .nil := f.items
      have lambda_ok := functionReference_named lambda_ (compile_function function_ ok)
      obtain ⟨list, table, parsed, later, later', isList, read, heap_eq, enters⟩ :=
        compileLambda_enters situated items lambda_ok
      -- The first item is a variable, and so it is not NIL.
      have plain : IsPlain (.ofSymbol f.var) := by simp [IsPlain, Value.asSymbol?_ofSymbol, named]
      obtain ⟨other, ⟨item_eq, -⟩⟩ := isList.opened plain
      obtain rfl : f.var = other := by
        have same := congrArg Value.asSymbol? item_eq
        rw [Value.asSymbol?_ofSymbol] at same
        exact Option.some.inj same
      rw [item_eq] at isList
      have prepared : Prepared s (.variable_ f.var f.lists) (.variable_ f.var r) := by
        obtain ⟨_, _, _, -, -, isPattern⟩ := f.isMacroList
        exact ⟨⟨_, _, .variable_ ⟨rfl, named⟩ isPattern⟩, .variable_ _ along, params, distinct,
          fun form member => destructures.constant form (sameLists.defaults_eq ▸ member)⟩
      obtain ⟨⟨list_vars, constant⟩, behind, list_eq, same, reads⟩ := prepared.read expansible.closed
        (fun id member => (f.new id (params ▸ member)).unmarked expansible.enough) f.assembles.heap
        f.assembles.symbols isList
      have undeclared : ∀ id ∈ list.boundVars, id ∉ parsed.declarations.specials := fun id member =>
        spreads.declaresNone noneBody parsed later later' read (heap_eq ▸ .refl _) id
          (Pattern.list_subset _ (list_vars ▸ member))
      have nodup := (List.nodup_append.mp ((Pattern.bound_perm _).nodup_iff.mpr distinct)).1
      obtain ⟨e⟩ := enters (list_vars ▸ nodup) (fun id member => ⟨undeclared id member, bindings_eq ▸
        f.isLexical expansible destructures params vars id (Pattern.list_subset _ (list_vars ▸ member))⟩)
        constant
      obtain ⟨rest, rfl, block, inner, stmts_eq, inner_eq⟩ := e.block
      have formsAt : FormsAt u.image.heap f.forms block.second (block.binding :: e.env) block.stmts e.last :=
        ⟨⟨parsed, later, later', _, _, rest, read, heap_eq ▸ .refl _, fun _ => ⟨rfl, rfl⟩,
          fun _ _ _ is => is, block.compiled⟩,
          fun _ _ => (compileBody_obeys (compileWithin_obeys rest) _ _).ended block.compiled⟩
      have plain : 0 < (Pattern.variable_ f.var r).count → parsed.declarations = {} := fun some_ => by
        -- Where sublists are spread, the body of the function declares nothing.
        have several : 0 < (Pattern.variable_ f.var f.lists).count := by
          rw [← Pattern.length_params] at some_ ⊢
          exact params ▸ some_
        obtain ⟨form, forms_eq, isPlain⟩ := spreads.single several
        rw [forms_eq, parseBody_single (heap_eq ▸ isPlain)] at read
        cases read
        rfl
      have stage := f.stage expansible destructures e block params vars list_vars undeclared plain
      obtain ⟨q, along', readsAlong, params', behind_eq, ⟨passes⟩⟩ := spreads.passes expansible.closed
        f.assembles.heap expansible.enough prepared same reads stage noneBody formsAt
      have q_list : q.list = list := by
        rw [← q.fill_behind, behind_eq, along'.fill_eq params', list_eq]
      cases along' with
      | @variable_ _ q _ inner_along =>
          cases readsAlong with
          | variable_ _ readsAlong =>
              exact ⟨q, r, readsAlong, params, sameAs, ⟨⟨rest, list, parsed, e, block, inner, stmts_eq,
                inner_eq, passes, fun form member => (constant form member).gains e.begins.proceeds.symbols,
                undeclared, q_list, list_vars, .variable_ _ inner_along, distinct⟩⟩⟩

end Compiling

section Calling

variable {p q : Pattern LambdaList} {heap : Heap} {expr : Expr} {last : CompileState}
  {made : LiteralKey → Value} {i : Image} {c fn n : Nat} {acceptor : Value} {items : List Value}

/-- An expander is called: where the arguments match, control comes to the body with all variables bound,
and elsewhere the call fails. -/
theorem ExpanderCode.called (code : ExpanderCode body p q name heap s expr last)
    (after : AfterUnit last made c i)
    (named : ∀ (key : LiteralKey) host, last.literals.names[key.code]? = some host →
      ∃ n, host = literalName n)
    (callable : (i.heap.function fn).callable = .closure ("values" :: code.entry.hosts)
      (code.entry.head.prologue.finish code.entry.stmts) c) (acceptor : Value)
    (surveyable : Surveyable i.heap n) (few : items.length + 1 < ampleArguments)
    (enough : items.length ≤ n) (defined : ∀ item ∈ items, item ≠ .undefined)
    (below : i.depth + p.count < i.depthLimit) (hasLists : q.HasLists i.heap items) :
    let run := callWithin (n + 2 * p.count + 2) (.function fn) (acceptor :: items)
    (q.Matches i.heap items →
      Comes (fun host => host = "values" ∨ Made s.counters code.passes.inner.counters host) run i c
        (1 + p.count) n code.passes.stmts' fun j d => q.Binds i.heap (LiteralValue made) i.heap j.heap
          (Gives code.passes.inner code.passes.env' j d) items) ∧
    (¬ q.Matches i.heap items → Fails run i) := by
  intro run
  obtain ⟨rest, list, parsed, entry, block, inner, stmts_eq, inner_eq, passes, constant, undeclared, rfl,
    list_vars, same, distinct⟩ := code
  dsimp only at callable ⊢
  have laterInner : Later passes.inner last :=
    passes.formsAt.later.trans (passes.later.trans entry.later)
  have called := entry.called block stmts_eq inner_eq (fun _ hosts => by
    obtain ⟨_, member, -⟩ := hosts
    cases member) constant undeclared acceptor callable after.ordered after.bound
    (entry.situated.literals (entry.laterBound.trans entry.later) after.literals) few
    (Nat.le_trans enough (Nat.le_add_right n (2 * p.count))) defined (by omega)
  have declared : Situated entry.body ({ env := entry.env } : Context).env :=
    entry.situated.declared entry.applied
  have toBlock : s.counters.Leads block.second.counters :=
    (entry.begins.proceeds.counters.trans entry.widens.proceeds.counters).trans
      (entry.declares.1.counters.trans (block.situated declared).1.proceeds.counters)
  have apart := (List.nodup_append.mp ((Pattern.bound_perm p).nodup_iff.mpr distinct)).2.2
  rw [Pattern.matches_iff]
  cases refused : q.list.refusal? items with
  | some refusal =>
      rw [refused] at called
      exact ⟨fun matched => (by cases matched.1), fun _ => called⟩
  | none =>
      rw [refused] at called
      have enters : ∀ j d, Deeper (fun host => host = "values" ∨ Made s.counters block.second.counters host)
          i c j d → j.depth = i.depth + 1 → j.heap.lookupVariable? d "values" = some acceptor →
          q.list.Receives items (LiteralValue made) i.heap j.heap
            (Gives block.second (block.binding :: entry.env) j d) → _ := fun j d deeper depth_eq accepts
          receives => passes.runs (n := n) laterInner
        ⟨deeper.ordered, deeper.bound, deeper.literals after.literals named fun n new =>
          new.elim (fun same => literalName_unreserved n (same ▸ values_reserved))
            fun isMade => isMade.ne_literal n rfl, named, acceptor, accepts⟩
        surveyable deeper.keeps (Pattern.topsGive_of_receives refused receives) hasLists
        (by rw [depth_eq, deeper.limit]; omega)
      refine ⟨fun matched => ?_, fun mismatch => ?_⟩
      · refine called.trans (fun j d deeper depth_eq good => ?_)
          (fun host new => new.imp_right (·.left passes.widens.proceeds.counters))
          fun host (new : Made block.second.counters passes.inner.counters host) => .inr (new.right toBlock)
        · refine ((enters j d deeper depth_eq good.1 good.2).1 matched.2).imp fun l f further inside => ?_
          refine .of_parts refused (good.2.imp (fun id member value given => ?_) (fun _ _ _ => id)
            fun value items fresh => isFreshList_kept fresh further.keeps) inside
          exact given.later passes.widens (fun bound => apart id (list_vars ▸ member) id bound rfl) further
      · exact called.fails fun j d deeper depth_eq good =>
          (enters j d deeper depth_eq good.1 good.2).2 fun inside => mismatch ⟨rfl, inside⟩

/-- The forms of a body that stands in a heap are compiled where names have their meanings in an
environment. -/
def BodyAt (heap : Heap) (body : List Value) (s : CompileState) (env : Environment)
    (stmts : List Stmt) : Prop :=
  ∃ parsed r r' depth t, heap.Keeps r.image.heap ∧ parseBody body true r = .ok parsed r' ∧
    compileBody (compileWithin depth) { env } parsed.forms s = .ok stmts t

/-- The script variable of a variable has a value. -/
def HasValue (s : CompileState) (env : Environment) (i : Image) (c : Nat) (id : SymbolId) (value : Value) :
    Prop :=
  ∃ host, IsHost s env id host ∧ i.heap.lookupVariable? c host = some value

/-- The call of an expander for a form with the given arguments. -/
def expanderCall (expander form : Value) (args : List Value) : Run Value :=
  Machine.call expander (.function (Image.nativeAddress (.routine .primaryValue)) :: form :: args)

/-- A form with the given arguments is to be expanded, some time after the expander was made: the
arguments in the places of sublists are proper lists, and calls may nest so deep. -/
structure IsMacroCall (q : Pattern LambdaList) (since : Image) (form : Value) (args : List Value)
    (v : CompileState) : Prop where
  follows : Machine.ComesAfter since v.image
  items : ∃ a, form = .cons a ∧ v.image.heap.Spine (v.image.heap.cell a).cdr args .nil
  hasLists : q.HasLists v.image.heap args
  below : v.image.depth + q.count < v.image.depthLimit
  /-- There are not too many conses for their elements to be arguments, and these are values. -/
  few : v.image.heap.cells.size + 2 < ampleArguments
  defined : ∀ a, a < v.image.heap.cells.size → (v.image.heap.cell a).car ≠ .undefined

/-- A function expands the calls of a macro: it runs the body with all variables bound to the parts of
the form that stand in their places, and where the arguments do not match, the expansion fails. -/
def Expands (name : SymbolId) (heap : Heap) (body : List Value) (whole : Option SymbolId)
    (q : Pattern LambdaList) (made : LiteralKey → Value) (since : Image) (expander : Value) : Prop :=
  ∃ u env stmts, BodyAt heap body u env stmts ∧ ∀ form args v, IsMacroCall q since form args v →
    callExpander name expander form v =
      onMachine (expanderCall expander form args)
        (fun cause => .macroExpansion (v.image.symbols.symbolName name) (.failed cause)) v ∧
    (q.Matches v.image.heap args → ∃ j d pending steps,
      Machine.Active (execBlock (callWithin (steps + 1)) (steps + 1) d stmts) j
        (expanderCall expander form args) v.image pending ∧ NoCleanups pending ∧
      (∀ id ∈ whole, HasValue u env j d id form) ∧
      q.Binds v.image.heap (LiteralValue made) v.image.heap j.heap (HasValue u env j d) args) ∧
    (¬ q.Matches v.image.heap args → ∃ cause w, callExpander name expander form v =
      .error (.macroExpansion (v.image.symbols.symbolName name) (.failed cause)) w)

theorem Expands.kept {later : Heap} {made : LiteralKey → Value} {q : Pattern LambdaList} {since : Image}
    (expands : Expands name later body whole q made since expander) (keeps : heap.Keeps later) :
    Expands name heap body whole q made since expander := by
  obtain ⟨u, env, stmts, ⟨parsed, r, r', depth, t, kept, read, compiled⟩, calls⟩ := expands
  exact ⟨u, env, stmts, ⟨parsed, r, r', depth, t, keeps.trans kept, read, compiled⟩, calls⟩

theorem callExpander_eq {v : CompileState} {args : List Value} {a : Address}
    (spine : v.image.heap.Spine (v.image.heap.cell a).cdr args .nil) :
    callExpander name expander (.cons a) v = onMachine (expanderCall expander (.cons a) args)
      (fun cause => .macroExpansion (v.image.symbols.symbolName name) (.failed cause)) v := by
  have read : restItems? (.cons a) v = .ok (some args) v :=
    congrArg (EStateM.Result.ok · v) spine.listItems?
  rw [callExpander, bind_ended read]
  rfl

/-- An expander expands the calls of its macro. -/
theorem ExpanderCode.expands {var : SymbolId} {r q : Pattern LambdaList} {since : Image}
    (code : ExpanderCode body (.variable_ var r) (.variable_ var q) name heap s expr last)
    (is_var : ∀ id ∈ whole, id = var)
    (none_ : DeclaresNone heap body ((Pattern.variable_ var r).vars ++ (Pattern.variable_ var r).params))
    (after : ∀ k, Machine.ComesAfter since k → AfterUnit last made c k)
    (named : ∀ (key : LiteralKey) host, last.literals.names[key.code]? = some host →
      ∃ n, host = literalName n)
    (callable : (since.heap.function fn).callable = .closure ("values" :: code.entry.hosts)
      (code.entry.head.prologue.finish code.entry.stmts) c) (small : q.count ≤ 2 ^ 32) :
    Expands name heap body whole q made since (.function fn) := by
  have same : q.vars = r.vars ∧ q.count = r.count := by
    cases code.same with
    | variable_ _ along =>
        rw [← Pattern.length_params, ← Pattern.length_params]
        exact ⟨along.vars_eq, along.length_params⟩
  obtain ⟨⟨parsed, r₁, r₂, env, u, depth, read, keeps, -, hosts, compiled⟩, -⟩ := code.passes.formsAt
  refine ⟨u, env, code.passes.stmts', ⟨parsed, r₁, r₂, depth, _, keeps, read, compiled⟩, ?_⟩
  rintro form args v ⟨follows, ⟨a, rfl, spine⟩, hasLists, below, few, defined⟩
  have called_eq := @callExpander_eq name (.function fn) v args a spine
  -- Of all the steps that a run may take, this many are left for the body.
  let n := ampleSteps - 2 - 2 * r.count
  have ample : 2 ^ 54 ≤ ampleSteps := by norm_num [ampleSteps]
  have arguments : ampleArguments = 2 ^ 53 := rfl
  have count_eq : (Pattern.variable_ var r).count = r.count := rfl
  have n_eq : n + 2 * (Pattern.variable_ var r).count + 2 = ampleSteps := by omega
  have surveyable : Surveyable v.image.heap n := ⟨by omega, by omega, defined⟩
  have short := spine.length_le_size
  have fits : (Value.cons a :: args).length + 1 < ampleArguments := by
    rw [List.length_cons]
    omega
  have values : ∀ item ∈ Value.cons a :: args, item ≠ .undefined :=
    List.forall_mem_cons.mpr ⟨by simp, surveyable.items spine⟩
  have outcome := code.called (after _ follows) named (follows.adds.closures fn _ _ _ (by simp) callable)
    (.function (Image.nativeAddress (.routine .primaryValue))) surveyable
    fits (by rw [List.length_cons]; omega) values (by omega) hasLists
  rw [n_eq] at outcome
  obtain ⟨comes, fails⟩ := outcome
  refine ⟨called_eq, fun matched => ?_, fun mismatch => ?_⟩
  · obtain ⟨j, d, pending, active, none', -, -, bound⟩ := comes matched
    have value_ : ∀ id ∈ (Pattern.variable_ var q).vars, ∀ value,
        Gives code.passes.inner code.passes.env' j d id value → HasValue u env j d id value := by
      rintro id member value ⟨host, isHost, -, held⟩
      have free := none_ parsed r₁ r₂ read keeps id (List.mem_append_left _ ?_)
      · exact ⟨host, hosts id free host isHost, held⟩
      · have vars : (Pattern.variable_ var q).vars = (Pattern.variable_ var r).vars :=
          congrArg (var :: ·) same.1
        exact vars ▸ member
    refine ⟨j, d, pending, n, active, none', fun id is => ?_, bound.2.imp (fun id member =>
      value_ id (List.mem_cons_of_mem _ member)) fun _ _ fresh => fresh⟩
    exact is_var id is ▸ value_ var List.mem_cons_self _ bound.1
  · obtain ⟨error, k, failed⟩ := fails mismatch
    have failed : expanderCall (.function fn) (.cons a) args v.image = .error (.failed error) k := failed
    exact ⟨_, _, by rw [called_eq, onMachine, failed]⟩

end Calling

section Units

variable {p q : Pattern LambdaList} {heap : Heap} {expr : Expr} {last : CompileState}
  {made : LiteralKey → Value} {i j : Image} {turns : Nat} {program : Program} {entries : List Hoisted}

theorem evalNow_ok (ok : evalNow (compileWithin depth) form s = .ok value t) :
    ∃ program u result, compileToplevel (compileWithin depth) form s = .ok program u ∧
      Machine.run program u.image = .ok result t.image ∧ value = (t.image.valuesOf result).headD .nil := by
  obtain ⟨program, u, compiled, ok⟩ := ok_of_bind ok
  obtain ⟨result, u', ran, ok⟩ := ok_of_bind ok
  obtain ⟨_, _, ⟨⟩, ended⟩ := ok_of_bind ok
  unfold onMachine at ran
  cases done : Machine.run program u.image with
  | error interrupt image =>
      rw [done] at ran
      cases ran
  | ok other image =>
      rw [done] at ran
      cases ran
      cases ended
      exact ⟨program, u, result, compiled, done, rfl⟩

/-- The unit of an expander makes its function. -/
theorem ExpanderCode.makes (code : ExpanderCode body p q name heap s expr last)
    (runs : UnitRuns turns program entries expr i made j) (ordered : Ordered i.heap) :
    ∃ fn k, runWithin (turns + 1) program i = .ok (.function fn) k ∧
      (k.heap.function fn).callable = .closure ("values" :: code.entry.hosts)
        (code.entry.head.prologue.finish code.entry.stmts) i.heap.scopes.size := by
  have bound := (runs.head.prepares.active (unitImage_active ordered)).bound
  obtain ⟨fn, k, ran, callable, -, -⟩ := evalExpr_functionCode (callWithin (turns + 1)) (turns + 1)
    code.entry.properties code.entry.hosts code.entry.unreserved code.entry.free
    runs.starts.steady.ordered bound
  exact ⟨fn, k, runs.run.trans (code.entry.code_eq ▸ ran), callable⟩

theorem length_le_of_indices {ids : List SymbolId} {count : Nat} (distinct : ids.Nodup)
    (below : ∀ id ∈ ids, id.index < count) : ids.length ≤ count := by
  have nodup : (ids.map SymbolId.index).Nodup := distinct.map fun a b same => by
    cases a
    cases b
    exact congrArg _ same
  have inside : ids.map SymbolId.index ⊆ List.range count := fun n member => by
    obtain ⟨id, isIn, rfl⟩ := List.mem_map.mp member
    exact List.mem_range.mpr (below id isIn)
  simpa using (nodup.subperm inside).length_le

end Units

section Definitions

/-- DEFMACRO makes the expander that it gives a name at top level. -/
theorem compileDefmacro_ok {nameForm : Value} {code : Expr} (placed : s.bindings.Placed)
    (named : nameForm.asSymbol? = some name)
    (ok : compileDefmacro (compileWithin depth) form (nameForm :: value :: body) s = .ok code t) :
    ∃ expander u, makeExpander (compileWithin depth) name value body s = .ok expander u ∧
      (t.bindings.globalMeaning name .functions).reference = .expander expander := by
  obtain ⟨_, s₁, checked, ok⟩ := ok_of_bind ok
  obtain rfl := expectArgs_ok checked
  dsimp only at ok
  rw [symbolArg, named] at ok
  obtain ⟨_, _, ⟨⟩, ok⟩ := ok_of_bind ok
  obtain ⟨expander, s₂, made, ok⟩ := ok_of_bind ok
  obtain ⟨_, _, ⟨⟩, literal_⟩ := ok_of_bind ok
  refine ⟨expander, s₂, made, ?_⟩
  have later : Later s s₂ := fun _ _ =>
    (makeExpander_obeys (compileWithin_obeys depth) _ _ _).ended made
  have defined : (s₂.bindings.define name .functions (.expander expander)).2.Placed :=
    (later StaysPlaced placed).define _ _ _
  have gains := ((Obeys.symbolLiteral (R := Isolated) name).ended literal_).bindings
  rw [gains.globalMeaning defined]
  change ((Bindings.putGlobal _ name .functions _).globalMeaning name .functions).reference = _
  rw [Bindings.globalMeaning_putGlobal, if_pos ⟨rfl, rfl⟩]
  rfl

theorem bindMacros_subset {definitions : List LocalDefinition} {env env' : Environment}
    (ok : bindMacros (compileWithin depth) env definitions s = .ok env' t) : env ⊆ env' := by
  induction definitions generalizing env s with
  | nil =>
      cases ok
      exact List.Subset.refl _
  | cons definition rest ih =>
      obtain ⟨_, _, -, ok⟩ := ok_of_bind ok
      obtain ⟨_, _, -, ok⟩ := ok_of_bind ok
      exact List.Subset.trans (List.subset_cons_self _ _) (ih ok)

/-- MACROLET makes the expanders that it gives names in its body. -/
theorem bindMacros_ok {rest : List LocalDefinition} {env env' : Environment}
    (ok : bindMacros (compileWithin depth) env (⟨name, value, body⟩ :: rest) s = .ok env' t) :
    ∃ expander u, makeExpander (compileWithin depth) name value body s = .ok expander u ∧
      ∃ binding ∈ env', binding.name = .ofSymbol name ∧ binding.space = .functions ∧
        binding.reference = .expander expander := by
  obtain ⟨expander, u, made, ok⟩ := ok_of_bind ok
  obtain ⟨binding, w, bound, ok⟩ := ok_of_bind ok
  cases bound
  exact ⟨expander, u, made, _, bindMacros_subset ok List.mem_cons_self, rfl, rfl, rfl⟩

end Definitions

section Main

variable {p : Pattern LambdaList}

/-- How an expander comes about: its form, the program that this is compiled to and the literals of the
program, with the states before and after the compilation and where that of the form itself ends. -/
structure Origin where
  form : Value
  before : CompileState
  program : Program
  after : CompileState
  last : CompileState
  entries : List Hoisted
  expr : Expr

/-- A macro lambda list and a body lead to an expander in this way: it is what the form gives when it is
evaluated, which means that the program runs in the image after the compilation. -/
structure Origin.Makes (origin : Origin) (depth : Nat) (name : SymbolId) (s : CompileState)
    (value : Value) (body : List Value) (expander : Value) (t : CompileState) : Prop where
  formed : expanderForm name value body s = .ok origin.form origin.before
  compiled : compileToplevel (compileWithin depth) origin.form origin.before =
    .ok origin.program origin.after
  unit : UnitOf origin.before origin.form depth origin.program origin.last origin.entries origin.expr
  evaluated : evalNow (compileWithin depth) origin.form origin.before = .ok expander t

/-- The program finds the symbols that it has literals for, and symbols are numbered by machine words. -/
structure Origin.Finds (origin : Origin) : Prop where
  symbols : ∀ entry ∈ origin.entries, entry.FoundIn origin.after.image.symbols
  small : origin.after.image.symbols.symbols.size ≤ 2 ^ 32

/-- The function that a macro lambda list and a body were made to is an expander: the call of it leads to
the body, with all variables bound. -/
def IsExpander (depth : Nat) (name : SymbolId) (s : CompileState) (value : Value) (body : List Value)
    (whole : Option SymbolId) (expander : Value) (t : CompileState) : Prop :=
  (∃ origin : Origin, origin.Makes depth name s value body expander t) ∧
    ∀ origin : Origin, origin.Makes depth name s value body expander t → origin.Finds →
      ∃ q made j, IsMacroList s.image.heap (ReadSince s) value whole q ∧
        UnitRuns (ampleSteps - 1) origin.program origin.entries origin.expr origin.after.image made j ∧
        Expands name s.image.heap body whole q made t.image expander

theorem makeExpander_expands (expansible : Expansible s)
    (destructures : Destructures s value body whole p)
    (ok : makeExpander (compileWithin depth) name value body s = .ok expander t) :
    IsExpander depth name s value body whole expander t := by
  obtain ⟨form, u, formed, ⟨f⟩, evaluated⟩ := makeExpander_ok destructures.isList ok
  obtain ⟨program, w, result, compiled, ran, expander_eq⟩ := evalNow_ok evaluated
  have sparing := f.sparing expansible.standing.sparing
  have standing := Standing.ofSparing sparing
  constructor
  · obtain ⟨last, entries, expr, unit⟩ := unitOf_compiled standing compiled
    exact ⟨⟨form, u, program, w, last, entries, expr⟩, formed, compiled, unit, evaluated⟩
  rintro ⟨_, _, _, _, last, entries, expr⟩ ⟨formed', compiled', ⟨ended, unit⟩, -⟩ ⟨found, small⟩
  obtain ⟨rfl, rfl⟩ := EStateM.Result.ok.inj (formed.symm.trans formed')
  obtain ⟨rfl, rfl⟩ := EStateM.Result.ok.inj (compiled.symm.trans compiled')
  have ordered : Ordered w.image.heap :=
    (Sparing.after (compileToplevel_spares (compileWithin_spares depth) form) sparing compiled).2.ordered
  have later : Later u w := fun _ _ =>
    (compileToplevel_obeys (compileWithin_obeys depth) form).ended compiled
  obtain ⟨q, r, along, params, sameAs, ⟨code⟩⟩ := f.compiles expansible destructures ended
  have vars : r.vars = p.vars := (sameAs.imp fun _ _ same => same ▸ SameLists.refl _).vars_eq
  obtain ⟨made, j, runs⟩ := unit.runs ordered found (ampleSteps - 1)
  have steps : ampleSteps - 1 + 1 = ampleSteps := by norm_num [ampleSteps]
  obtain ⟨fn, k, made_, callable⟩ := code.makes runs ordered
  rw [steps] at made_
  obtain ⟨rfl, rfl⟩ := EStateM.Result.ok.inj (made_.symm.trans ran)
  obtain rfl : expander = .function fn := expander_eq
  refine ⟨q, made, j, f.isMacroList.along along, runs, Expands.kept (code.expands f.is_var
    (f.declaresNone expansible destructures params vars) (fun k follows => ?_)
    (fun key host held => ?_) callable ?_) f.assembles.heap⟩
  · refine runs.afterwards unit ordered ?_
    rw [steps, made_]
    exact follows
  · obtain ⟨entry, -, -, rfl⟩ := (unit.tabled.names key host).mp held
    exact ⟨entry.number, rfl⟩
  · have sized : f.lists.params.length ≤ w.image.symbols.symbols.size :=
      length_le_of_indices f.distinct fun id member =>
        Nat.lt_of_lt_of_le (f.new id member).known (later KeepsLocals).homes.size
    rw [← Pattern.length_params, along.length_params]
    exact Nat.le_trans sized small

/-- Macro destructuring binds what the pattern says, as long as APPLY is the built-in function. The
expander that is made of a macro lambda list runs the body with all variables bound to the parts of a
matching form, at all levels, and fails for all other forms. It is made in the same way by DEFMACRO, that
gives it a name at top level, and by MACROLET, that gives it a name in a body. -/
theorem macro_arguments_are_destructured (expansible : Expansible s)
    (destructures : Destructures s value body whole p) (name : SymbolId) (depth : Nat) :
    (∀ expander t, makeExpander (compileWithin depth) name value body s = .ok expander t →
      IsExpander depth name s value body whole expander t) ∧
    (∀ form nameForm code t, nameForm.asSymbol? = some name →
      compileDefmacro (compileWithin depth) form (nameForm :: value :: body) s = .ok code t →
      ∃ expander u, IsExpander depth name s value body whole expander u ∧
        (t.bindings.globalMeaning name .functions).reference = .expander expander) ∧
    ∀ rest env env' t,
      bindMacros (compileWithin depth) env (⟨name, value, body⟩ :: rest) s = .ok env' t →
      ∃ expander u, IsExpander depth name s value body whole expander u ∧
        ∃ binding ∈ env', binding.name = .ofSymbol name ∧ binding.space = .functions ∧
          binding.reference = .expander expander := by
  refine ⟨fun expander t => makeExpander_expands expansible destructures, ?_, ?_⟩
  · intro form nameForm code t named ok
    obtain ⟨expander, u, made, defined⟩ := compileDefmacro_ok expansible.placed named ok
    exact ⟨expander, u, makeExpander_expands expansible destructures made, defined⟩
  · intro rest env env' t ok
    obtain ⟨expander, u, made, bound⟩ := bindMacros_ok ok
    exact ⟨expander, u, makeExpander_expands expansible destructures made, bound⟩

end Main

section Example

theorem Compiler.Bindings.unmade_initial {id : SymbolId}
    (unknown : ¬ Image.initialSymbols.HasSymbol id) :
    (Bindings.initial.globalMeaning id .vars).special = false := by
  have known : Image.initialSymbols.HasSymbol SymbolId.t ∧
      Image.initialSymbols.HasSymbol SymbolId.nil := by decide +kernel
  have isT : SymbolId.t ≠ id := fun same => unknown (same ▸ known.1)
  have isNil : SymbolId.nil ≠ id := fun same => unknown (same ▸ known.2)
  -- T and NIL are all that was defined.
  have none_ : Bindings.initial.getGlobal? id .vars = none := by
    simp only [Bindings.initial, Bindings.define, Bindings.bindWith, Bindings.setConstant]
    change (Bindings.putGlobal _ _ _ _).getGlobal? _ _ = _
    rw [Bindings.getGlobal?_putGlobal, if_neg fun same => isNil same.1]
    change (Bindings.putGlobal _ _ _ _).getGlobal? _ _ = _
    rw [Bindings.getGlobal?_putGlobal, if_neg fun same => isT same.1]
    rfl
  rw [Bindings.globalMeaning, none_]

theorem expansible_reading {cells : List Cell}
    (closed : (CompileState.reading cells).image.heap.Closed) : Expansible (CompileState.reading cells) where
  standing := CompileState.standing_reading cells
  placed := Bindings.Placed.initial
  closed := closed
  unmade := fun _ => Bindings.unmade_initial
  applies := rfl
  enough := by
    change _ < Image.initialSymbols.symbolCount
    decide +kernel

/-- `((SPECIAL))` -/
def oneSublist : List Cell := [⟨.cons 1, .nil⟩, ⟨.symbol SymbolId.special, .nil⟩]

def oneSublistPattern : Pattern LambdaList :=
  .sublist SymbolId.apply none (.variable_ SymbolId.special (.others {})) (.others {})

theorem closed_oneSublist : (CompileState.reading oneSublist).image.heap.Closed := by
  intro a bound
  have bound : a < 2 := bound
  have either : a = 0 ∨ a = 1 := by omega
  obtain rfl | rfl := either
  · exact ⟨fun b same => (by cases same; decide), fun b same => (by cases same)⟩
  · exact ⟨fun b same => (by cases same), fun b same => (by cases same)⟩

theorem destructures_oneSublist : Destructures (CompileState.reading oneSublist) (.cons 0)
    [.symbol SymbolId.special] none oneSublistPattern where
  isList := by
    have others : AreOthers ([] : List Value) := ⟨by simp, by simp⟩
    have reads : ReadThere (CompileState.reading oneSublist).image.heap
        (CompileState.reading oneSublist).image.symbols [] {} :=
      ⟨by simp, _, ⟨[], [], [], [], rfl, .nil, .absent, .absent, .absent⟩⟩
    have inner : (CompileState.reading oneSublist).image.heap.Spine (.cons 1)
        [.symbol SymbolId.special] .nil := .cons (by decide) (.done rfl)
    exact ⟨[.cons 1], [.cons 1], .nil, .cons (by decide) (.done rfl), .absent _,
      .sublist _ rfl inner (.absent _) (.variable_ ⟨rfl, rfl⟩ (.others others .proper reads))
        (.others others .proper reads)⟩
  there := by
    rintro form member a same
    rw [List.mem_singleton.mp member] at same
    cases same
  distinct := by decide
  known := by
    intro id member
    obtain rfl : id = SymbolId.special := List.mem_singleton.mp member
    change Image.initialSymbols.HasSymbol _
    decide +kernel
  lexical := by
    intro id member
    obtain rfl : id = SymbolId.special := List.mem_singleton.mp member
    rfl
  constant := by
    rintro form ⟨⟩
  declared := by
    intro parsed read id declared
    cases read
    cases declared

/-- The expander's form is compiled. -/
def oneSublistCode : Compile Expr := fun s =>
  match expanderForm SymbolId.special (.cons 0) [.symbol SymbolId.special] s with
  | .ok form u => compileWithin 16 .toplevel form (startUnit u)
  | .error e u => .error e u

def hasNoLiterals : EStateM.Result CompileError CompileState Expr → Bool
  | .ok _ last => last.literals.initializers.isEmpty
  | .error _ _ => false

def symbolsFit : EStateM.Result CompileError CompileState Value → Bool
  | .ok _ t => t.image.symbols.symbols.size ≤ 2 ^ 32
  | .error _ _ => false

theorem macro_arguments_are_destructured_of_oneSublist : ∃ expander t q made,
    makeExpander (compileWithin 16) SymbolId.special (.cons 0) [.symbol SymbolId.special]
      (CompileState.reading oneSublist) = .ok expander t ∧
    IsMacroList (CompileState.reading oneSublist).image.heap
      (ReadSince (CompileState.reading oneSublist)) (.cons 0) none q ∧
    Expands SymbolId.special (CompileState.reading oneSublist).image.heap [.symbol SymbolId.special] none q
      made t.image expander := by
  have fits : symbolsFit (makeExpander (compileWithin 16) SymbolId.special (.cons 0)
      [.symbol SymbolId.special] (CompileState.reading oneSublist)) = true := by decide +kernel
  have plain : hasNoLiterals (oneSublistCode (CompileState.reading oneSublist)) = true := by
    decide +kernel
  cases made : makeExpander (compileWithin 16) SymbolId.special (.cons 0) [.symbol SymbolId.special]
      (CompileState.reading oneSublist) with
  | error e t =>
      rw [made] at fits
      cases fits
  | ok expander t =>
      rw [made] at fits
      obtain ⟨⟨origin, makes⟩, expands⟩ :=
        (macro_arguments_are_destructured (expansible_reading closed_oneSublist)
          destructures_oneSublist SymbolId.special 16).1 expander t made
      have finds : origin.Finds := by
        constructor
        · rw [oneSublistCode, makes.formed] at plain
          dsimp only at plain
          rw [makes.unit.compiled] at plain
          have none_ := makes.unit.unit.tabled.initializers
          rw [Array.isEmpty_iff.mp plain] at none_
          rw [List.map_eq_nil_iff.mp none_.symm]
          exact List.forall_mem_nil _
        · obtain ⟨program, u, result, compiled, ran, -⟩ := evalNow_ok makes.evaluated
          obtain ⟨rfl, rfl⟩ := EStateM.Result.ok.inj (compiled.symm.trans makes.compiled)
          have kept := reaches_run origin.program origin.after.image _ .keepsSymbols
          rw [ran] at kept
          exact Nat.le_trans kept (of_decide_eq_true fits)
      obtain ⟨q, values, j, isList, -, expands⟩ := expands origin makes finds
      exact ⟨expander, t, q, values, rfl, isList, expands⟩

/-- `(&REST SPECIAL)`, the macro lambda list above, `(SPECIAL (T))`, `(DECLAIM (NOTINLINE APPLY))` and
`(FSET (QUOTE APPLY) (FUNCTION (LAMBDA (&REST SPECIAL))))`, with the parts of these. -/
def redefinition : List Cell :=
  [⟨.symbol SymbolId.ampRest, .cons 1⟩, ⟨.symbol SymbolId.special, .nil⟩,
    ⟨.cons 3, .nil⟩, ⟨.symbol SymbolId.special, .nil⟩,
    ⟨.symbol SymbolId.special, .cons 5⟩, ⟨.cons 6, .nil⟩, ⟨.t, .nil⟩,
    ⟨.symbol SpecialForm.declaim.symbol, .cons 8⟩, ⟨.cons 9, .nil⟩,
    ⟨.symbol SymbolId.notInlined, .cons 10⟩, ⟨.symbol SymbolId.apply, .nil⟩,
    ⟨.symbol Primitive.fset.symbol, .cons 12⟩, ⟨.cons 13, .cons 14⟩,
    ⟨.symbol SymbolId.quote, .cons 10⟩, ⟨.cons 15, .nil⟩,
    ⟨.symbol SymbolId.function, .cons 16⟩, ⟨.cons 17, .nil⟩,
    ⟨.symbol SymbolId.lambda, .cons 18⟩, ⟨.cons 0, .nil⟩]

/-- What `(SPECIAL (T))` expands to where the body of the macro is its variable, when some forms have been
evaluated before the macro is defined. -/
def expansionAfter (forms : List Value) : Option SymbolId :=
  let compile := compileWithin 16
  let expansion : Compile Value := do
    forms.forM fun form => discard (evalNow compile form)
    let expander ← makeExpander compile SymbolId.special (.cons 2) [.symbol SymbolId.special]
    callExpander SymbolId.special expander (.cons 4)
  match expansion (CompileState.reading redefinition) with
  | .ok value _ => value.asSymbol?
  | .error _ _ => none

/-- The arguments match, but the body is not reached where calls of APPLY are not inlined and its function
is another. -/
theorem redefined_apply_drops_body :
    oneSublistPattern.Matches (CompileState.reading redefinition).image.heap [.cons 6] ∧
      expansionAfter [] = some SymbolId.t ∧
      expansionAfter [.cons 7, .cons 11] = some SymbolId.nil := by
  have argument : (CompileState.reading redefinition).image.heap.Spine (.cons 6) [.t] .nil :=
    .cons (by decide) (.done rfl)
  exact ⟨⟨⟨[.t], argument, rfl⟩, rfl⟩, by decide +kernel⟩

end Example

end LispScript
