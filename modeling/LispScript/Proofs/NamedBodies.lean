import LispScript.Proofs.Block
import LispScript.Proofs.Destructuring

/-!
The body of a lambda expression with a name. It is a block of that name, inside of which variables mean
what they mean outside.
-/

namespace LispScript

open Script Compiler Machine Discipline

variable {s s' t : CompileState} {env : Environment} {context : Context} {depth : Nat} {id name : SymbolId}
  {forms body : List Value}

section Declarations

variable {spared : String → Prop}

/-- A binding that is declared anew stands for the same variable of the script. -/
theorem redeclare_hosts (id : SymbolId) (space : Namespace) {change : Binding → Bindings → Bindings}
    (same : ∀ binding bindings, (change binding bindings).globals = bindings.globals) :
    Spares spared (redeclare env id space change) fun env' =>
      ∀ host, env'.Hosts host → env.Hosts host := by
  refine .bind (.resolve _ _ _) fun current? known => ?_
  split
  · exact .pure fun _ hosts => hosts
  · rename_i current
    refine .bind (P := fun shadow => shadow.reference = current.reference)
      (.onBindings fun _ none_ => ⟨none_, rfl⟩) fun shadow reference => ?_
    refine .bind (.modifyBindings (same shadow)) fun _ _ => .pure ?_
    rintro host ⟨binding, member, hosts⟩
    rcases List.mem_cons.mp member with rfl | member
    · exact known current rfl host (reference ▸ hosts)
    · exact ⟨binding, member, hosts⟩

/-- What a body declares brings in no variables of the script. -/
theorem applyFreeDeclarations_hosts (specs : DeclSpecs) (bound : List SymbolId) :
    Spares spared (applyFreeDeclarations env specs bound) fun env' =>
      ∀ host, env'.Hosts host → env.Hosts host := by
  have each {env₁ : Environment} (before : ∀ host, env₁.Hosts host → env.Hosts host) (id : SymbolId)
      (space : Namespace) {change : Binding → Bindings → Bindings}
      (same : ∀ binding bindings, (change binding bindings).globals = bindings.globals) :
      Spares spared (redeclare env₁ id space change) fun env' =>
        ∀ host, env'.Hosts host → env.Hosts host :=
    (redeclare_hosts id space same).mono fun _ after host hosts => before host (after host hosts)
  refine .bind (.foldlM _ (fun _ hosts => hosts) fun _ id before => each before id .vars ?_)
    fun _ before => ?_
  · exact fun _ _ => rfl
  refine .bind (.foldlM _ before fun _ id before => each before id .functions ?_) fun _ before => ?_
  · exact fun _ _ => rfl
  refine .foldlM _ before fun _ id before => each before id .functions ?_
  exact fun _ _ => rfl

/-- A copy of a binding that is put in front of an environment is local. -/
theorem redeclare_locals {env' : Environment} {space : Namespace} {alter : Binding → Bindings → Bindings}
    {f : Declarations → Declarations}
    (alters : ∀ binding bindings, alter binding bindings = bindings.updateDeclared binding f)
    (placed : s.bindings.Placed) (locals : ∀ binding ∈ env, s.bindings.IsLocal binding)
    (ok : redeclare env id space alter s = .ok env' t) :
    t.bindings.Placed ∧ ∀ binding ∈ env', t.bindings.IsLocal binding := by
  obtain ⟨current?, s₁, resolved, ok⟩ := ok_of_bind ok
  have gains : s.bindings.OnlyGains s₁.bindings :=
    ((Obeys.resolve (R := Isolated) _ _ _).ended resolved).bindings
  have placed₁ := gains.placed placed
  cases current? with
  | none =>
      cases ok
      exact ⟨placed₁, fun binding member => gains.locals binding (locals binding member)⟩
  | some current =>
      let copy := s₁.bindings.shadow current
      have ok : EStateM.Result.ok (copy.1 :: env) { s₁ with bindings := alter copy.1 copy.2 } =
        .ok env' t := ok
      let later := s₁.bindings.bindWith current.name current.space current.reference
        (f { s₁.bindings.declared current with used := false })
      have altered : alter copy.1 copy.2 = later.2 :=
        (alters _ _).trans (updateDeclared_bindWith _ _ _ _ _ f)
      rw [altered] at ok
      cases ok
      have grown : s₁.bindings.OnlyGains later.2 := .bindWith ..
      refine ⟨grown.placed placed₁, fun binding member => ?_⟩
      rcases List.mem_cons.mp member with rfl | member
      · exact Bindings.isLocal_bindWith placed₁ ..
      · exact (gains.trans grown).locals binding (locals binding member)

theorem redeclareAll_locals {env' : Environment} {space : Namespace} {ids : List SymbolId}
    {alter : Binding → Bindings → Bindings} {f : Declarations → Declarations}
    (alters : ∀ binding bindings, alter binding bindings = bindings.updateDeclared binding f)
    (placed : s.bindings.Placed) (locals : ∀ binding ∈ env, s.bindings.IsLocal binding)
    (ok : ids.foldlM (fun env id => redeclare env id space alter) env s = .ok env' t) :
    t.bindings.Placed ∧ ∀ binding ∈ env', t.bindings.IsLocal binding := by
  induction ids generalizing s env with
  | nil =>
      cases ok
      exact ⟨placed, locals⟩
  | cons id ids ih =>
      rw [List.foldlM_cons] at ok
      obtain ⟨env₁, s₁, first, ok⟩ := ok_of_bind ok
      obtain ⟨placed₁, locals₁⟩ := redeclare_locals alters placed locals first
      exact ih placed₁ locals₁ ok

/-- Where what a body declares has been applied, forms can be compiled as before. -/
theorem Compiler.Situated.declared {specs : DeclSpecs} {bound : List SymbolId} {env' : Environment}
    (situated : Situated s env) (ok : applyFreeDeclarations env specs bound s = .ok env' t) :
    Situated t env' := by
  obtain ⟨_, _, ran, redeclares⟩ :=
    applyFreeDeclarations_ok situated.ready.placed situated.ready.holds specs bound
  cases ran.symm.trans ok
  have sparing := (Sparing.after (applyFreeDeclarations_spares situated.apart specs bound)
    situated.sparing ok).2
  have apart := Spares.held (applyFreeDeclarations_spares situated.apart specs bound) situated.sparing ok
  have later : Later s t := fun _ _ => (applyFreeDeclarations_obeys _ _ _).ended ok
  obtain ⟨bindings, rfl⟩ := redeclares.rest
  have locals : ∀ binding ∈ env', bindings.IsLocal binding := by
    obtain ⟨env₁, s₁, first, ok⟩ := ok_of_bind ok
    obtain ⟨env₂, s₂, second, third⟩ := ok_of_bind ok
    obtain ⟨placed₁, locals₁⟩ := redeclareAll_locals (fun _ _ => rfl) situated.ready.placed situated.locals first
    obtain ⟨placed₂, locals₂⟩ := redeclareAll_locals (fun _ _ => rfl) placed₁ locals₁ second
    exact (redeclareAll_locals (fun _ _ => rfl) placed₂ locals₂ third).2
  exact ⟨⟨redeclares.placed, redeclares.holds, situated.ready.bounded, situated.ready.named⟩, sparing,
    apart, locals, situated.tabledLater later⟩

end Declarations

section Blocks

/-- In the environment of a block variables and functions mean what they mean outside. -/
theorem newBinding_block {token : String} {manyValues : Bool} {binding : Binding} (ready : Ready s env)
    (ok : newBinding (.ofSymbol id) .blocks (.block token manyValues) s = .ok binding t) :
    Binds [] s t env (binding :: env) := by
  cases ok
  have gains := Bindings.OnlyGains.bindWith s.bindings (.ofSymbol id) .blocks (.block token manyValues) {}
  have goes := ready.withBindings gains
  let bound := s.bindings.bindWith (.ofSymbol id) .blocks (.block token manyValues) {}
  have meaning : ∀ name space, space ≠ .blocks →
      bound.2.meaning? (bound.1 :: env) name space = s.bindings.meaning? env name space := by
    intro name space other
    rw [Bindings.meaning?_cons, if_neg fun same => other same.1.symm]
    exact gains.meaning? ready.placed ready.holds _ _
  refine ⟨goes.onward, ⟨goes.ready.placed, ?_, ready.bounded, ready.named⟩,
    fun other _ => meaning _ _ (by decide), fun name => meaning _ _ (by decide),
    fun all binding member => ?_, ?_⟩
  · intro binding member
    rcases List.mem_cons.mp member with rfl | member
    · exact Bindings.has_bindWith ..
    · exact goes.ready.holds binding member
  · rcases List.mem_cons.mp member with rfl | member
    · exact Bindings.isLocal_bindWith ready.placed ..
    · exact gains.locals binding (all binding member)
  · rintro all name ⟨binding, member, hosts⟩
    rcases List.mem_cons.mp member with rfl | member
    · cases hosts
    · exact all name ⟨binding, member, hosts⟩

theorem freshBlock_ok {token : String} (ready : Ready s env)
    (sparing : Sparing (· = "values") s)
    (ok : onCounters Counters.freshBlock s = .ok token t) : GoesOn env s t := by
  obtain ⟨leads, sparing'⟩ := Sparing.after .freshBlock sparing ok
  obtain ⟨-, -, rfl⟩ := onCounters_ok ok
  exact ⟨⟨rfl, .refl _, leads, fun _ _ held => held⟩, ready.placed, ready.holds, sparing'.bounded,
    ready.named⟩

variable (block : BlockParts depth context id body s s')

/-- Inside a block forms can be compiled as they can be outside. -/
theorem BlockParts.situated (situated : Situated s context.env) :
    Widens [] s block.second context.env (block.binding :: context.env) ∧
      Situated block.second (block.binding :: context.env) := by
  have goes := freshBlock_ok situated.ready situated.sparing block.fresh
  have binds := (goes.binds situated.ready).trans (newBinding_block goes.ready block.bound)
  have later : Later s block.second := fun R _ =>
    Interning.trans ((Obeys.onCounters Counters.freshBlock fun _ => rfl).ended block.fresh)
      ((Obeys.newBinding _ _ _).ended block.bound)
  have widens : Widens [] s block.second context.env (block.binding :: context.env) := binds.widens later
  have sparing := (Sparing.after .freshBlock situated.sparing block.fresh).2
  have sparing' : Sparing (· = "values") block.second :=
    (Sparing.after (.newBinding _ _ _) sparing block.bound).2
  refine ⟨widens, widens.situated situated sparing' (situated.apart.cons fun host is => ?_)⟩
  rw [block.reference] at is
  cases is

variable {i : Image} {c : Nat} {fresh : String → Prop}

theorem BlockParts.made (sparing : Sparing (· = "values") s) :
    Made s.counters block.second.counters block.token := by
  have second_eq : block.second.counters = block.first.counters := by
    obtain ⟨_, _, _, _, _, _, bound, _⟩ := block
    cases bound
    rfl
  obtain ⟨changed, token_eq, first_eq⟩ := onCounters_ok block.fresh
  have later : s.counters.blocks < next s.counters.blocks :=
    lt_next sparing.bounded.blocks fun same =>
      changed (congrArg (fun n => { s.counters with blocks := n }) same)
  rw [second_eq, token_eq, first_eq]
  exact .block _ later (Nat.le_refl _)

/-- The code of a block comes to the body. -/
theorem BlockParts.comes {code : Expr} (standing : Standing context s)
    (code_eq : code = if block.used then block.code else statementsExpr block.stmts)
    (ordered : Ordered i.heap) (bound : c < i.heap.scopes.size) (steps : Nat) :
    Comes (Made s.counters block.second.counters) (evalExpr (callWithin (steps + 1)) (steps + 1) c code) i c
      0 steps block.stmts fun _ _ => True := by
  subst code_eq
  have inside : Deeper (Made s.counters block.second.counters) i c (i.inside c) i.heap.scopes.size :=
    .inside ordered bound
  split
  · -- The activation is identified by a vector, which a variable of the block's own scope holds.
    have entered := Entered.begin steps (steps + 1) block.token ordered bound
    obtain ⟨holding, -⟩ := block.holding standing
    refine ⟨_, _, _, .interceptor entered holding .here, by simp [NoCleanups], ?_, rfl, trivial⟩
    let held : Image := { i.inside c with heap := ((i.inside c).heap.allocVector #[]).2 }
    have ordered' : Ordered held.heap := ⟨inside.ordered.global, inside.ordered.parents,
      inside.ordered.closures, inside.ordered.natives⟩
    have vector : Deeper (Made s.counters block.second.counters) (i.inside c) i.heap.scopes.size held
        i.heap.scopes.size :=
      ⟨ordered', inside.bound, (i.inside c).heap.keeps_allocVector #[], rfl, fun name _ _ =>
        lookupVariable?_congr (show held.heap.scopes = (i.inside c).heap.scopes from rfl) _ name⟩
    have set_ : Touches i.heap.scopes.size (Made s.counters block.second.counters) held
        (held.setOwn i.heap.scopes.size block.token (.vector (i.heap.vectors.size + 1))) :=
      .setOwn vector.bound (block.made standing.sparing) _
    exact (inside.trans vector).trans (set_.deeper vector.ordered vector.bound)
  · unfold statementsExpr
    split
    · rename_i value stmts_eq
      refine ⟨i, c, [], ?_, by simp [NoCleanups], .refl ordered bound, rfl, trivial⟩
      rw [← return_result, stmts_eq]
      exact .first .here
    · exact ⟨i.inside c, _, [], .ofWrap .here, by simp [NoCleanups], inside, rfl, trivial⟩

end Blocks

section Lambdas

variable {list : LambdaList} {parsed : Body} {code : Expr}

/-- A body's declarations add bindings only. -/
theorem Compiler.LambdaEntry.declares {name : Option SymbolId}
    (e : LambdaEntry depth context list parsed name s code t) :
    Proceeds e.bound e.body ∧ e.body.counters = e.bound.counters := by
  have later : Later e.bound e.body := fun _ _ => (applyFreeDeclarations_obeys _ _ _).ended e.applied
  obtain ⟨_, _, ran, redeclares⟩ := applyFreeDeclarations_ok e.situated.ready.placed
    e.situated.ready.holds parsed.declarations list.boundVars
  cases ran.symm.trans e.applied
  obtain ⟨_, same⟩ := redeclares.rest
  exact ⟨⟨redeclares.isolated.bindings, same ▸ .refl _, same ▸ .refl _, same ▸ .refl _, later⟩, by rw [same]⟩

/-- The body of a lambda expression with a name is a block. -/
theorem Compiler.LambdaEntry.block (e : LambdaEntry depth context list parsed (some name) s code t) :
    ∃ rest, depth = rest + 1 ∧
      ∃ (block : BlockParts rest { env := e.env } name parsed.forms e.body e.last) (inner : Expr),
        e.stmts = [.ret inner] ∧
        inner = if block.used then block.code else statementsExpr block.stmts := by
  obtain ⟨tail, s₁, tail_, ok⟩ := ok_of_bind e.formed
  obtain ⟨form, s₂, form_, ended⟩ := ok_of_bind ok
  obtain ⟨forms_eq, rfl⟩ := EStateM.Result.ok.inj ended
  obtain ⟨-, tail_⟩ := newList_ok tail_
  obtain ⟨assembles, form_⟩ := newListWithTail_ok form_
  have spine := form_.append (tail_.kept assembles.heap)
  obtain ⟨inner, compiled, stmts_eq⟩ := compileBody_single (forms_eq ▸ e.compiled)
  have keeps := e.widens.proceeds.heap.trans e.declares.1.heap
  cases depth with
  | zero => cases compiled
  | succ rest =>
      have isBlock : IsForm e.body.image.heap .block (.ofSymbol name :: parsed.forms) form :=
        isForm_of_spine (spine.kept keeps)
      obtain ⟨id, named, block, inner_eq⟩ := compile_block isBlock compiled
      rw [Value.asSymbol?_ofSymbol] at named
      cases named
      exact ⟨rest, rfl, block, inner, stmts_eq, inner_eq⟩

/-- Where the declarations of a body have been applied, the variables of the script were made before. -/
theorem Compiler.LambdaEntry.standing {name : Option SymbolId} (e : LambdaEntry depth context list parsed name s code t)
    (known : ∀ host, context.env.Hosts host → Made {} s.counters host) :
    Standing { env := e.env } e.body := by
  refine ⟨(e.situated.declared e.applied).sparing, fun host hosts => e.declares.2 ▸ ?_⟩
  refine e.binds.binds.hosts (fun host hosts => (known host hosts).left e.begins.proceeds.counters) host ?_
  exact Spares.held (applyFreeDeclarations_hosts _ _) e.situated.sparing e.applied host hosts

/-- A function with a name is called: unless its arguments are refused, control comes to the body. -/
theorem Compiler.LambdaEntry.called {fn rest steps c : Nat} {i : Image} {made : LiteralKey → Value}
    {items : List Value} (e : LambdaEntry (rest + 1) context list parsed (some name) s code t)
    (block : BlockParts rest { env := e.env } name parsed.forms e.body e.last) {inner : Expr}
    (stmts_eq : e.stmts = [.ret inner])
    (inner_eq : inner = if block.used then block.code else statementsExpr block.stmts)
    (known : ∀ host, context.env.Hosts host → Made {} s.counters host)
    (constant : ∀ form ∈ list.defaults, IsConstantForm e.start.image.symbols form)
    (undeclared : ∀ id ∈ list.boundVars, id ∉ parsed.declarations.specials) (acceptor : Value)
    (callable : (i.heap.function fn).callable =
      .closure ("values" :: e.hosts) (e.head.prologue.finish e.stmts) c)
    (ordered : Ordered i.heap) (bound : c < i.heap.scopes.size)
    (literals : HoldsLiterals e.bound made i c) (few : items.length + 1 < ampleArguments)
    (enough : items.length ≤ steps) (defined : ∀ item ∈ items, item ≠ .undefined)
    (below : i.depth < i.depthLimit) :
    let run := callWithin (steps + 2) (.function fn) (acceptor :: items)
    match list.refusal? items with
    | some _ => Fails run i
    | none => Comes (fun host => host = "values" ∨ Made s.counters block.second.counters host) run i c 1
        steps block.stmts fun j d => j.heap.lookupVariable? d "values" = some acceptor ∧
          list.Receives items (LiteralValue made) i.heap j.heap
            (Gives block.second (block.binding :: e.env) j d) := by
  intro run
  choose! hostOf named isMade using e.binds.areHosts
  have outcome := e.binds.called acceptor named constant callable ordered bound literals few enough
    defined below
  have standing := e.standing known
  have situated : Situated e.body ({ env := e.env } : Context).env := e.situated.declared e.applied
  have widens := (block.situated situated).1
  cases refused : list.refusal? items with
  | some refusal =>
      rw [refused] at outcome
      exact outcome
  | none =>
      rw [refused] at outcome
      obtain ⟨j, d, active, deeper, accepts, depth_eq, receives⟩ := outcome
      have before : s.counters.Leads e.start.counters := e.begins.proceeds.counters
      have toBody : e.bound.counters.Leads block.second.counters :=
        e.declares.2 ▸ widens.proceeds.counters
      have first : Comes (fun host => host = "values" ∨ Made s.counters e.bound.counters host) run i c 1
          steps e.stmts fun j' d' => j' = j ∧ d' = d :=
        ⟨j, d, _, active, by simp [NoCleanups],
          deeper.mono fun _ new => new.imp_right (·.right before), depth_eq, rfl, rfl⟩
      change Comes _ run i c (1 + 0) steps block.stmts _
      refine first.trans (fun j' d' _ _ same => ?_) (fun host new => new.imp_right (·.left toBody))
        fun host new => .inr (Made.right new (before.trans (e.declares.2.symm ▸ e.widens.proceeds.counters)))
      obtain ⟨rfl, rfl⟩ := same
      rw [stmts_eq]
      refine (block.comes standing inner_eq deeper.ordered deeper.bound steps).ofReturn.imp
        fun k f further _ => ⟨?_, ?_⟩
      · refine (further.lookup "values" (fun new => ?_) (by decide)).trans accepts
        exact new.unreserved values_reserved
      · refine receives.imp (fun id member value held => ?_) (fun _ _ _ => id) fun value items fresh =>
          isFreshList_kept fresh further.keeps
        have isHost := ((named id member).declared e.situated.ready e.applied (undeclared id member))
        refine ⟨hostOf id, (widens.isHost List.not_mem_nil).mpr isHost,
          (isMade id member).ever.left toBody, ?_⟩
        exact (further.lookup _ (fun new => (isMade id member).disjoint (e.declares.2 ▸ new))
          (isMade id member).ne_arguments).trans held

end Lambdas

end LispScript
