import LispScript.Proofs.Nesting
import LispScript.Proofs.Spreading

/-!
The sublists of a macro lambda list, one inside or after the other: where the forms that spread them
are compiled, and what their runs come to.
-/

namespace LispScript.Compiler

open Script Machine Discipline

section Receiving

variable {list : LambdaList} {args : List Value} {has has' : Value → Value → Prop}
  {before later before' later' : Heap} {gives gives' : SymbolId → Value → Prop} {image : Image}
  {made : LiteralKey → Value} {form : Value} {table last : SymbolTable}

/-- Of the variables and the defaults of a lambda list, something else is known. -/
theorem LambdaList.Receives.imp (receives : list.Receives args has before later gives)
    (gives_ : ∀ id ∈ list.boundVars, ∀ value, gives id value → gives' id value)
    (has_ : ∀ form ∈ list.defaults, ∀ value, has form value → has' form value)
    (fresh : ∀ value items, IsFreshList before later value items →
      IsFreshList before' later' value items) :
    list.Receives args has' before' later' gives' := by
  have ofOptional : ∀ (k : Nat) param, list.optional[k]? = some param →
      param.default ∈ list.defaults ∧ ∀ id ∈ param.vars, id ∈ list.boundVars := by
    intro k param found
    have member := List.mem_of_getElem? found
    refine ⟨List.mem_append_left _ (List.mem_map_of_mem member), fun id inside => ?_⟩
    have inside : id ∈ list.optional.flatMap OptionalParam.vars :=
      List.mem_flatMap.mpr ⟨param, member, inside⟩
    simp only [LambdaList.boundVars, List.mem_append]
    exact .inl (.inl (.inr inside))
  have ofKey : ∀ param ∈ list.keys,
      param.default ∈ list.defaults ∧ ∀ id ∈ param.vars, id ∈ list.boundVars := by
    intro param member
    refine ⟨List.mem_append_right _ (List.mem_map_of_mem member), fun id inside => ?_⟩
    exact List.mem_append_right _ (List.mem_flatMap.mpr ⟨param, member, inside⟩)
  constructor
  · intro k var found
    obtain ⟨arg, at_, given⟩ := receives.required k var found
    refine ⟨arg, at_, gives_ var ?_ arg given⟩
    simp [LambdaList.boundVars, List.mem_of_getElem? found]
  · intro k param arg found at_
    exact gives_ _ ((ofOptional k param found).2 _ List.mem_cons_self) _
      (receives.given k param arg found at_)
  · intro k param found absent
    obtain ⟨value, has, given⟩ := receives.missing k param found absent
    exact ⟨value, has_ _ (ofOptional k param found).1 _ has,
      gives_ _ ((ofOptional k param found).2 _ List.mem_cons_self) _ given⟩
  · intro k param flag found supplied
    refine gives_ _ ((ofOptional k param found).2 _ ?_) _ (receives.givenFlag k param flag found supplied)
    simp [OptionalParam.vars, supplied]
  · intro var is
    obtain ⟨value, isFresh, given⟩ := receives.rest var is
    refine ⟨value, fresh _ _ isFresh, gives_ var ?_ value given⟩
    simp [LambdaList.boundVars, is]
  · intro param member arg found
    exact gives_ _ ((ofKey param member).2 _ List.mem_cons_self) _ (receives.key param member arg found)
  · intro param member absent
    obtain ⟨value, has, given⟩ := receives.keyDefault param member absent
    exact ⟨value, has_ _ (ofKey param member).1 _ has,
      gives_ _ ((ofKey param member).2 _ List.mem_cons_self) _ given⟩
  · intro param member flag supplied
    refine gives_ _ ((ofKey param member).2 _ ?_) _ (receives.keyFlag param member flag supplied)
    simp [KeyParam.vars, supplied]

namespace Pattern

variable {heap heap' : Heap} {q : Pattern LambdaList}

/-- Of the variables of a pattern, something else is known. -/
theorem Binds.imp (binds : q.Binds heap has before later gives args)
    (gives_ : ∀ id ∈ q.vars, ∀ value, gives id value → gives' id value)
    (fresh : ∀ value items, IsFreshList before later value items →
      IsFreshList before' later' value items) : q.Binds heap has before' later' gives' args := by
  induction q generalizing args with
  | others list => exact binds.imp gives_ (fun _ _ _ => id) fresh
  | variable_ var rest ih =>
      cases args with
      | nil => exact binds.elim
      | cons arg args =>
          exact ⟨gives_ var List.mem_cons_self arg binds.1,
            ih binds.2 fun id member => gives_ id (List.mem_cons_of_mem _ member)⟩
  | sublist param whole inner rest inside others =>
      cases args with
      | nil => exact binds.elim
      | cons arg args =>
          obtain ⟨wholeBound, ⟨items, spine, bound⟩, more⟩ := binds
          refine ⟨fun var is => gives_ var ?_ arg (wholeBound var is), ⟨items, spine, inside bound ?_⟩,
            others more ?_⟩
          · exact List.mem_append_left _ (Option.mem_toList.mpr is)
          · exact fun id member => gives_ id (by simp [vars, member])
          · exact fun id member => gives_ id (by simp [vars, member])

theorem InsideBinds.imp (binds : q.InsideBinds heap has before later gives args)
    (gives_ : ∀ id ∈ q.vars, ∀ value, gives id value → gives' id value)
    (fresh : ∀ value items, IsFreshList before later value items →
      IsFreshList before' later' value items) : q.InsideBinds heap has before' later' gives' args := by
  induction q generalizing args with
  | others list => trivial
  | variable_ var rest ih =>
      cases args with
      | nil => trivial
      | cons arg args => exact ih binds fun id member => gives_ id (List.mem_cons_of_mem _ member)
  | sublist param whole inner rest _ others =>
      cases args with
      | nil => trivial
      | cons arg args =>
          obtain ⟨wholeBound, ⟨items, spine, bound⟩, more⟩ := binds
          refine ⟨fun var is => gives_ var ?_ arg (wholeBound var is), ⟨items, spine, bound.imp ?_ fresh⟩,
            others more ?_⟩
          · exact List.mem_append_left _ (Option.mem_toList.mpr is)
          · exact fun id member => gives_ id (by simp [vars, member])
          · exact fun id member => gives_ id (by simp [vars, member])

/-- The parameters that stand for sublists have the arguments in their places. -/
def TopsGive {α : Type} (gives : SymbolId → Value → Prop) : Pattern α → List Value → Prop
  | others _, _ => True
  | variable_ _ rest, _ :: args => rest.TopsGive gives args
  | sublist param _ _ rest, arg :: args => gives param arg ∧ rest.TopsGive gives args
  | _, [] => False

theorem TopsGive.imp {α : Type} {q : Pattern α} (tops : q.TopsGive gives args)
    (gives_ : ∀ id ∈ q.tops, ∀ value, gives id value → gives' id value) : q.TopsGive gives' args := by
  induction q generalizing args with
  | others known => trivial
  | variable_ var rest ih =>
      cases args with
      | nil => exact tops.elim
      | cons arg args => exact ih tops gives_
  | sublist param whole inner rest _ ih =>
      cases args with
      | nil => exact tops.elim
      | cons arg args =>
          exact ⟨gives_ param List.mem_cons_self arg tops.1,
            ih tops.2 fun id member => gives_ id (List.mem_cons_of_mem _ member)⟩

theorem topsGive_of_receives (takes : q.list.refusal? args = none)
    (receives : q.list.Receives args has before later gives) : q.TopsGive gives args := by
  induction q generalizing args with
  | others list => trivial
  | variable_ var rest ih =>
      cases args with
      | nil =>
          rw [Pattern.list, LambdaList.refusal?_require_nil] at takes
          cases takes
      | cons arg args =>
          rw [Pattern.list, LambdaList.refusal?_require_cons] at takes
          exact ih takes (LambdaList.receives_require.mp receives).2
  | sublist param whole inner rest _ ih =>
      cases args with
      | nil =>
          rw [Pattern.list, LambdaList.refusal?_require_nil] at takes
          cases takes
      | cons arg args =>
          rw [Pattern.list, LambdaList.refusal?_require_cons] at takes
          obtain ⟨first, others⟩ := LambdaList.receives_require.mp receives
          exact ⟨first, ih takes others⟩

/-- The variables and the parameters of a sublist, and those of the rest, are apart. -/
theorem sublist_perm (param : SymbolId) (whole : Option SymbolId) (inner rest : Pattern LambdaList) :
    ((sublist param whole inner rest).vars ++ (sublist param whole inner rest).params).Perm
      (param :: (whole.toList ++ ((inner.vars ++ inner.params) ++ (rest.vars ++ rest.params)))) := by
  refine List.perm_iff_count.mpr fun id => ?_
  simp only [vars, params, List.count_append, List.count_cons]
  omega

theorem list_subset (q : Pattern LambdaList) : q.list.boundVars ⊆ q.vars ++ q.params :=
  fun _ member => (bound_perm q).subset (List.mem_append_left _ member)

theorem binders_subset (q : Pattern LambdaList) : q.binders ⊆ q.vars ++ q.params :=
  fun _ member => (bound_perm q).subset (List.mem_append_right _ member)

theorem list_defaults (q : Pattern LambdaList) : q.list.defaults ⊆ q.defaults := by
  induction q with
  | others list => exact fun _ => id
  | variable_ var rest ih => exact ih
  | sublist param whole inner rest _ ih => exact fun form member => List.mem_append_right _ (ih member)

end Pattern

theorem IsConstantForm.reads (constant : IsConstantForm image.symbols form) :
    defaultForm? image form = some (.literal form) := by
  cases form with
  | symbol id =>
      have known : (id = SymbolId.t || image.symbols.isKeyword id) = true := by
        simpa [IsConstantForm] using constant
      rw [defaultForm?, if_pos known]
  | cons a => exact constant.elim
  | _ => rfl

theorem IsConstantForm.gains (constant : IsConstantForm table form) (gains : table.OnlyGains last) :
    IsConstantForm last form := by
  cases form with
  | symbol id =>
      refine constant.imp_right fun isKeyword => ?_
      by_cases known : table.HasSymbol id
      · rwa [SymbolTable.isKeyword, gains.symbol id known]
      · have absent : table.symbol id = default := by
          rw [SymbolTable.symbol, Array.getD_eq_getD_getElem?,
            Array.getElem?_eq_none (Nat.le_of_not_lt known)]
          rfl
        rw [SymbolTable.isKeyword, absent] at isKeyword
        cases isKeyword
  | _ => exact constant

theorem hasSimpleDefaults_of_constant
    (constant : ∀ form ∈ list.defaults, IsConstantForm image.symbols form) :
    list.HasSimpleDefaults image where
  optional before param after same := by
    have member : param.default ∈ list.defaults := by simp [LambdaList.defaults, same]
    exact ⟨_, (constant _ member).reads, by simp⟩
  key before param after same := by
    have member : param.default ∈ list.defaults := by simp [LambdaList.defaults, same]
    exact ⟨_, (constant _ member).reads, by simp⟩

/-- A default that stands for itself has its own value. -/
theorem IsConstantForm.value (constant : IsConstantForm image.symbols form) {value : Value}
    (has : DefaultHas image made gives form value) : LiteralValue made form value := by
  obtain ⟨read, reads, has⟩ := has
  obtain rfl := Option.some.inj (constant.reads.symm.trans reads)
  exact has

end Receiving

section Entering

variable {s t : CompileState} {env : Environment} {head : Head} {list : LambdaList}
  {hosts : List String} {host : SymbolId → String} {i : Image} {c : Nat} {made : LiteralKey → Value}
  {acceptor value : Value} {items : List Value} {steps turns : Nat} {stmts : List Stmt}
  {holder param : String}

theorem evalList_of_ok {call : Caller} {first : Expr} {rest : List Expr} {values : List Value} {j k : Image}
    (done : evalExpr call turns c first i = .ok value j)
    (others : evalList call turns c rest j = .ok values k) :
    evalList call turns c (first :: rest) i = .ok (value :: values) k := by
  rw [evalList, bind_of_ok done, bind_of_ok others]
  rfl

/-- A function is called: unless its arguments are refused, its body is entered. -/
theorem ParametersBound.called {fn : Nat} (bound : ParametersBound list s t env head hosts)
    (acceptor : Value)
    (named : ∀ id ∈ list.boundVars, IsHost t head.env id (host id))
    (constant : ∀ form ∈ list.defaults, IsConstantForm s.image.symbols form)
    (callable : (i.heap.function fn).callable =
      .closure ("values" :: hosts) (head.prologue.finish stmts) c) (ordered : Ordered i.heap)
    (known : c < i.heap.scopes.size) (literals : HoldsLiterals t made i c)
    (few : items.length + 1 < ampleArguments) (enough : items.length ≤ steps)
    (defined : ∀ item ∈ items, item ≠ .undefined) (below : i.depth < i.depthLimit) :
    let run := callWithin (steps + 2) (.function fn) (acceptor :: items)
    match list.refusal? items with
    | some _ => ∃ error k, run i = .error (.failed error) k
    | none => ∃ j d,
        Machine.Active (execBlock (callWithin (steps + 1)) (steps + 1) d stmts) j run i [.activation] ∧
        Deeper (fun name => name = "values" ∨ Made s.counters t.counters name) i c j d ∧
        j.heap.lookupVariable? d "values" = some acceptor ∧ j.depth = i.depth + 1 ∧
        list.Receives items (LiteralValue made) i.heap j.heap
          fun id value => j.heap.lookupVariable? d (host id) = some value := by
  intro run
  -- The call is counted, and the parameters are bound in a scope of its own.
  let counted : Image := { i with depth := i.depth + 1 }
  let opened : Image := activationImage counted c ("values" :: hosts) (acceptor :: items)
  have deeper : Deeper (fun name => name = "values" ∨ Made s.counters t.counters name) i c opened
      i.heap.scopes.size := by
    have counting : Deeper (· ∈ "values" :: hosts) i c counted c := .counting ordered known _
    have activation : Deeper (· ∈ "values" :: hosts) counted c opened i.heap.scopes.size :=
      .activation (i := counted) ordered known _ _
    refine (counting.trans activation).mono fun name member => ?_
    exact (List.mem_cons.mp member).imp_right (bound.newHosts.made name ·)
  obtain ⟨prologue, k, finish, touches, outcome⟩ := bound.enters named
    (show Ordered counted.heap from ordered) known
    ⟨literals.held, literals.symbol, literals.character⟩ few enough defined
  have around : ∀ {β : Type} {x : Run β} {j : Image} {pending : List Layer},
      Machine.Active x j (execBlock (callWithin (steps + 1)) (steps + 1) i.heap.scopes.size
        (prologue ++ stmts)) opened pending → Machine.Active x j run i (pending ++ [.activation]) :=
    fun active => .ofClosure (finish stmts ▸ callable) few below active
  cases refused : list.refusal? items with
  | some refusal =>
      rw [refused] at outcome
      obtain ⟨k', failed⟩ := (around (.ofFirst .here)).failed (by simp [NoCleanups]) outcome
      exact ⟨_, k', failed⟩
  | none =>
      rw [refused] at outcome
      obtain ⟨ran, receives⟩ := outcome
      have inner := touches.deeper deeper.ordered deeper.bound
      have further := deeper.trans (inner.mono fun name new => .inr new)
      refine ⟨k, i.heap.scopes.size, around (.afterFirst ran .here), further, ?_, ?_, ?_⟩
      · rw [inner.lookup "values" (fun new => new.unreserved (by decide)) (by decide)]
        exact lookup_acceptor bound.newHosts counted c acceptor items
      · obtain ⟨_, _, _, rfl⟩ := touches.rest
        rfl
      · refine receives.imp (fun id _ value given => ?_)
          (fun form member value => (constant form member).value) fun value items => id
        rw [Image.own?] at given
        exact lookupVariable?_own further.bound given

/-- A list is spread over the variables of a lambda list: the arguments of the call are its elements,
and unless they are refused, the body of the function is entered. -/
theorem ParametersBound.spread (bound : ParametersBound list s t env head hosts) (turns : Nat)
    (named : ∀ id ∈ list.boundVars, IsHost t head.env id (host id))
    (constant : ∀ form ∈ list.defaults, IsConstantForm s.image.symbols form)
    (unreserved : holder ∉ reservedNames) (properties : List (String × String))
    (free : "values" ∉ Stmt.assignedAll (head.prologue.finish stmts)) (ordered : Ordered i.heap)
    (known : c < i.heap.scopes.size) (accepts : i.heap.lookupVariable? c "values" = some acceptor)
    (param_ne : param ≠ "arguments") (held : i.heap.lookupVariable? c param = some value) (spine : i.heap.Spine value items .nil)
    (literals : HoldsLiterals t made i c) (few : items.length + 1 < ampleArguments)
    (enough : items.length ≤ steps) (defined : ∀ item ∈ items, item ≠ .undefined)
    (below : i.depth < i.depthLimit) :
    let code := .callPrimitive .apply [.ident "values",
      functionCode holder hosts (head.prologue.finish stmts) properties, .ident param]
    let run := evalExpr (callWithin (steps + 3)) turns c code
    match list.refusal? items with
    | some _ => ∃ error k, run i = .error (.failed error) k
    | none => ∃ j d,
        Machine.Active (execBlock (callWithin (steps + 1)) (steps + 1) d stmts) j run i [.activation] ∧
        Deeper (Made s.counters t.counters) i c j d ∧ j.depth = i.depth + 1 ∧
        list.Receives items (LiteralValue made) i.heap j.heap
          fun id value => j.heap.lookupVariable? d (host id) = some value := by
  intro code run
  obtain ⟨fn, i₁, made_, callable, deeper₁, depth₁⟩ := evalExpr_functionCode (callWithin (steps + 3))
    turns properties hosts unreserved free ordered known
  have accepts₁ := (deeper₁.lookup "values" id (by decide)).trans accepts
  have held₁ := (deeper₁.lookup param id param_ne).trans held
  have done : evalList (callWithin (steps + 3)) turns c [.ident "values",
      functionCode holder hosts (head.prologue.finish stmts) properties, .ident param] i =
        .ok [acceptor, .function fn, value] i₁ := by
    refine evalList_of_ok (evalExpr_ident accepts) (evalList_of_ok made_ ?_)
    exact evalList_of_ok (evalExpr_ident held₁) rfl
  have read := (spine.kept deeper₁.keeps).listItems?
  have literals₁ := deeper₁.literals literals (fun key => bound.binds.ready.named key.code) fun _ => id
  have outcome := bound.called acceptor named constant callable deeper₁.ordered
    deeper₁.bound literals₁ few enough defined (by rwa [depth₁, deeper₁.limit])
  have applied : Machine.Active (callWithin (steps + 2) (.function fn) (acceptor :: items)) i₁ run i [] :=
    .ofApply deeper₁.ordered done read .here
  cases refused : list.refusal? items with
  | some refusal =>
      rw [refused] at outcome
      obtain ⟨error, k, failed⟩ := outcome
      obtain ⟨k', failed⟩ := applied.failed (by simp [NoCleanups]) failed
      exact ⟨error, k', failed⟩
  | none =>
      rw [refused] at outcome
      obtain ⟨j, d, active, deeper, sees, depth, receives⟩ := outcome
      refine ⟨j, d, active.trans applied, ?_, by rw [depth, depth₁], ?_⟩
      · exact (deeper₁.mono fun _ => False.elim).trans (deeper.reseen (sees.trans accepts₁.symm))
      · exact receives.imp (fun id _ value given => given) (fun _ _ _ => id)
          fun value items fresh => isFreshList_since fresh deeper₁.keeps.cells

end Entering

end LispScript.Compiler
