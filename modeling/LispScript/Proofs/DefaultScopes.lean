import LispScript.Proofs.LambdaCalls

/-!
Where default forms are compiled. Each sees the parameters to its left, and those of keyword
parameters see nothing else of the lambda list; those of optional parameters also see all
supplied-p variables of optional parameters, which are bound first.
-/

namespace LispScript.Compiler

open Script

section Scopes

variable {outer env : Environment} {vars more : List SymbolId} {id : SymbolId}

/-- The environment has bindings of the given variables, the last one innermost, in front of an outer
one. -/
def Adds (outer : Environment) (vars : List SymbolId) (env : Environment) : Prop :=
  ∃ added : List Binding, env = added ++ outer ∧
    added.map (·.name) = vars.reverse.map Value.ofSymbol ∧ ∀ binding ∈ added, binding.space = .vars

theorem Adds.refl (env : Environment) : Adds env [] env :=
  ⟨[], rfl, rfl, List.forall_mem_nil _⟩

theorem Adds.trans {env' : Environment} (first : Adds outer vars env) (second : Adds env more env') :
    Adds outer (vars ++ more) env' := by
  obtain ⟨added, rfl, names, spaces⟩ := first
  obtain ⟨added', rfl, names', spaces'⟩ := second
  refine ⟨added' ++ added, (List.append_assoc ..).symm, ?_, fun binding member => ?_⟩
  · rw [List.map_append, names, names', List.reverse_append, List.map_append]
  · exact (List.mem_append.mp member).elim (spaces' binding) (spaces binding)

theorem Adds.one {binding : Binding} (name : binding.name = .ofSymbol id)
    (space : binding.space = .vars) (env : Environment) : Adds env [id] (binding :: env) :=
  ⟨[binding], rfl, by simp [name], by simp [space]⟩

/-- What a default form sees of a lambda list: these parameters are found in front of the outer
environment, and every other variable and name means what it means there. -/
def SeesJust (sees : SymbolId → Prop) (outer env : Environment) : Prop :=
  ∃ added : List Binding, env = added ++ outer ∧
    (∀ id, sees id → ∃ binding ∈ added, env.lookup? (.ofSymbol id) .vars = some binding) ∧
    (∀ id, ¬ sees id → env.lookup? (.ofSymbol id) .vars = outer.lookup? (.ofSymbol id) .vars) ∧
    ∀ name space, space ≠ .vars → env.lookup? name space = outer.lookup? name space

theorem Adds.seesJust (adds : Adds outer vars env) {sees : SymbolId → Prop}
    (same : ∀ id, id ∈ vars ↔ sees id) : SeesJust sees outer env := by
  obtain ⟨added, rfl, names, spaces⟩ := adds
  have named : ∀ binding ∈ added, ∃ id ∈ vars, binding.name = .ofSymbol id := by
    intro binding member
    have inside : binding.name ∈ vars.reverse.map Value.ofSymbol :=
      names ▸ List.mem_map_of_mem member
    obtain ⟨id, known, same⟩ := List.mem_map.mp inside
    exact ⟨id, List.mem_reverse.mp known, same.symm⟩
  refine ⟨added, rfl, fun id seen => ?_, fun id unseen => ?_, fun name space other => ?_⟩
  · have inside : Value.ofSymbol id ∈ added.map (·.name) := by
      rw [names]
      exact List.mem_map_of_mem (List.mem_reverse.mpr ((same id).mpr seen))
    obtain ⟨binding, member, name⟩ := List.mem_map.mp inside
    have matched : (binding.space == .vars && binding.name.eql (.ofSymbol id)) = true := by
      rw [spaces binding member, name, (ofSymbol_eql id id).mpr rfl]
      rfl
    obtain ⟨found, first⟩ := Option.isSome_iff_exists.mp (List.find?_isSome
      (p := fun binding => binding.space == .vars && binding.name.eql (.ofSymbol id)) |>.mpr
        ⟨binding, member, matched⟩)
    refine ⟨found, List.mem_of_find?_eq_some first, ?_⟩
    rw [Environment.lookup?, List.find?_append, first, Option.some_or]
  · rw [Environment.lookup?, List.find?_append, List.find?_eq_none.mpr, Option.none_or]
    · rfl
    intro binding member matched
    obtain ⟨other, known, name⟩ := named binding member
    rw [Bool.and_eq_true_iff, name] at matched
    obtain rfl := (ofSymbol_eql other id).mp matched.2
    exact unseen ((same other).mp known)
  · rw [Environment.lookup?, List.find?_append, List.find?_eq_none.mpr, Option.none_or]
    · rfl
    intro binding member matched
    rw [Bool.and_eq_true_iff, spaces binding member, beq_iff_eq] at matched
    exact other matched.1.symm

end Scopes

section Statements

variable {prologue : Prologue} {stmt : Stmt} {s t : CompileState}

/-- A statement of a prologue, in whatever section. -/
def Prologue.Has (prologue : Prologue) (stmt : Stmt) : Prop :=
  stmt ∈ prologue.current ∨ ∃ part ∈ prologue.sections, stmt ∈ part.1

theorem Prologue.Has.add (has : prologue.Has stmt) (stmts : List Stmt) :
    (prologue.add stmts).Has stmt :=
  has.imp_left (List.mem_append_left _)

theorem Prologue.has_add {stmts : List Stmt} (member : stmt ∈ stmts) : (prologue.add stmts).Has stmt :=
  .inl (List.mem_append_right _ member)

theorem Prologue.Has.bindSpecial (has : prologue.Has stmt) {id : SymbolId} {value : Expr}
    {prologue' : Prologue} (ok : prologue.bindSpecial id value s = .ok prologue' t) :
    prologue'.Has stmt := by
  obtain ⟨place, s₁, -, ok⟩ := ok_of_bind ok
  obtain ⟨old, s₂, -, ok⟩ := ok_of_bind ok
  cases ok
  rcases has with now | ⟨part, member, inside⟩
  · exact .inr ⟨_, List.mem_cons_self, List.mem_append_left _ now⟩
  · exact .inr ⟨part, List.mem_cons_of_mem _ member, inside⟩

/-- A missing argument is replaced by what the code computes: in a branch of its own, or in a case of
a switch. -/
inductive Prologue.Supplies (prologue : Prologue) (host : String) (code : Expr) : Prop where
  | branch (test : Expr) (has : prologue.Has (.branch test [assignStmt host code] []))
  | case (test : Expr) (cases : List Case) (has : prologue.Has (.select argumentCount cases))
      (member : .case test [assignStmt host code] ∈ cases)

/-- The head goes on: it keeps its statements, and binds the given variables. -/
structure Head.GoesTo (head : Head) (vars : List SymbolId) (head' : Head) : Prop where
  adds : Adds head.env vars head'.env
  keeps : ∀ stmt, head.prologue.Has stmt → head'.prologue.Has stmt

variable {head head' head'' : Head} {vars more : List SymbolId} {specials : List SymbolId}

theorem Head.GoesTo.trans (first : head.GoesTo vars head') (second : head'.GoesTo more head'') :
    head.GoesTo (vars ++ more) head'' :=
  ⟨first.adds.trans second.adds, fun stmt has => second.keeps stmt (first.keeps stmt has)⟩

theorem Head.goesTo_add (head : Head) (stmts : List Stmt) : head.GoesTo [] (head.add stmts) :=
  ⟨.refl _, fun _ has => has.add stmts⟩

theorem Head.GoesTo.add (goes : head.GoesTo vars head') (stmts : List Stmt) :
    head.GoesTo vars (head'.add stmts) :=
  ⟨goes.adds, fun stmt has => (goes.keeps stmt has).add stmts⟩

theorem Prologue.Supplies.goesTo {host : String} {code : Expr}
    (supplies : head.prologue.Supplies host code) (goes : head.GoesTo vars head') :
    head'.prologue.Supplies host code := by
  cases supplies with
  | branch test has => exact .branch test (goes.keeps _ has)
  | case test cases has member => exact .case test cases (goes.keeps _ has) member

theorem variableBinding_names {id : SymbolId} {host : String} {special : Bool} {binding : Binding}
    (ok : variableBinding id host special s = .ok binding t) :
    binding.name = .ofSymbol id ∧ binding.space = .vars := by
  unfold variableBinding at ok
  cases special with
  | false =>
      cases ok
      exact ⟨rfl, rfl⟩
  | true =>
      obtain ⟨made, s₁, new, ok⟩ := ok_of_bind ok
      obtain ⟨_, s₂, -, ok⟩ := ok_of_bind ok
      cases ok
      cases new
      exact ⟨rfl, rfl⟩

theorem bindParameter_goesTo {var : SymbolId} {host : String}
    (ok : bindParameter specials head var host s = .ok head' t) : head.GoesTo [var] head' := by
  obtain ⟨special, s₁, -, ok⟩ := ok_of_bind ok
  cases special with
  | false =>
      obtain ⟨_, _, ⟨⟩, ok⟩ := ok_of_bind ok
      obtain ⟨binding, s₂, made, ok⟩ := ok_of_bind ok
      cases ok
      obtain ⟨name, space⟩ := variableBinding_names made
      exact ⟨.one name space _, fun _ => id⟩
  | true =>
      obtain ⟨prologue, s₂, begun, ok⟩ := ok_of_bind ok
      obtain ⟨binding, s₃, made, ok⟩ := ok_of_bind ok
      cases ok
      obtain ⟨name, space⟩ := variableBinding_names made
      exact ⟨.one name space _, fun stmt has => has.bindSpecial begun⟩

end Statements

section Sections

variable {compile : FormCompiler} {context : Context} {specials : List SymbolId}
  {head head' : Head} {s t : CompileState}

/-- The code that the compiler makes of a form in an environment. -/
def CompiledIn (compile : FormCompiler) (context : Context) (env : Environment) (form : Value)
    (code : Expr) : Prop :=
  ∃ s t, compileSingle compile (context.withEnv env) form s = .ok code t

theorem bindRequired_goesTo {vars : List SymbolId} {hosts : List String}
    (ok : bindRequired specials head vars s = .ok (head', hosts) t) :
    head.GoesTo vars head' ∧ hosts.length = vars.length := by
  induction vars generalizing head s hosts with
  | nil =>
      cases ok
      exact ⟨⟨.refl _, fun _ => id⟩, rfl⟩
  | cons var vars ih =>
      obtain ⟨host, s₁, -, ok⟩ := ok_of_bind ok
      obtain ⟨head₁, s₂, bound, ok⟩ := ok_of_bind ok
      obtain ⟨⟨head₂, others⟩, s₃, rest, ok⟩ := ok_of_bind ok
      cases ok
      obtain ⟨goes, length⟩ := ih rest
      exact ⟨(bindParameter_goesTo bound).trans goes, by simp [length]⟩

theorem bindSupplied_goesTo {params : List OptionalParam} {position : Nat} {hosts : List String}
    (ok : bindSupplied specials head position params s = .ok (head', hosts) t) :
    head.GoesTo (flagsOf params) head' ∧ hosts.length = params.length := by
  induction params generalizing head position s hosts with
  | nil =>
      cases ok
      exact ⟨⟨.refl _, fun _ => id⟩, rfl⟩
  | cons param params ih =>
      obtain ⟨host, s₁, -, ok⟩ := ok_of_bind ok
      have flags_eq : flagsOf (param :: params) = param.supplied.toList ++ flagsOf params :=
        List.flatMap_cons
      rw [flags_eq]
      cases supplied : param.supplied with
      | none =>
          simp only [supplied] at ok
          obtain ⟨_, _, ⟨⟩, ok⟩ := ok_of_bind ok
          obtain ⟨⟨head₁, others⟩, s₂, rest, ok⟩ := ok_of_bind ok
          cases ok
          obtain ⟨goes, length⟩ := ih rest
          exact ⟨goes, by simp [length]⟩
      | some flag =>
          simp only [supplied] at ok
          obtain ⟨name, s₂, -, ok⟩ := ok_of_bind ok
          obtain ⟨head₁, s₃, bound, ok⟩ := ok_of_bind ok
          obtain ⟨⟨head₂, others⟩, s₄, rest, ok⟩ := ok_of_bind ok
          cases ok
          obtain ⟨goes, length⟩ := ih rest
          exact ⟨((head.goesTo_add _).trans (bindParameter_goesTo bound)).trans goes,
            by simp [length]⟩

/-- The defaults of optional parameters, with what each sees of the others. -/
def DefaultsMade (compile : FormCompiler) (context : Context) (env : Environment)
    (params : List (OptionalParam × String)) (prologue : Prologue) : Prop :=
  ∀ before param host after, params = before ++ (param, host) :: after → ∃ scope code,
    Adds env (before.map (·.1.var)) scope ∧ CompiledIn compile context scope param.default code ∧
      prologue.Supplies host code

theorem bindDefaultsInOrder_made {params : List (OptionalParam × String)} {position : Nat}
    (ok : bindDefaultsInOrder compile context specials head position params s = .ok head' t) :
    head.GoesTo (params.map (·.1.var)) head' ∧
      DefaultsMade compile context head.env params head'.prologue := by
  induction params generalizing head position s with
  | nil =>
      cases ok
      exact ⟨⟨.refl _, fun _ => id⟩, by simp [DefaultsMade]⟩
  | cons pair params ih =>
      obtain ⟨param, host⟩ := pair
      obtain ⟨code, s₁, compiled, ok⟩ := ok_of_bind ok
      obtain ⟨head₁, s₂, bound, ok⟩ := ok_of_bind ok
      have goes := (head.goesTo_add _).trans (bindParameter_goesTo bound)
      obtain ⟨further, made⟩ := ih ok
      refine ⟨goes.trans further, fun before param' host' after same => ?_⟩
      cases before with
      | nil =>
          cases same
          refine ⟨head.env, code, .refl _, ⟨_, _, compiled⟩, Prologue.Supplies.goesTo ?_ further⟩
          exact .branch _ ((bindParameter_goesTo bound).keeps _ (Prologue.has_add List.mem_cons_self))
      | cons first before =>
          cases same
          obtain ⟨scope, code', adds, compiled', supplies⟩ := made before param' host' after rfl
          exact ⟨scope, code', goes.adds.trans adds, compiled', supplies⟩

theorem defaultCases_made {params : List (OptionalParam × String)} {position : Nat}
    {env env' : Environment} {cases : List Case}
    (ok : defaultCases compile context env position params s = .ok (env', cases) t) :
    Adds env (params.map (·.1.var)) env' ∧
      ∀ before param host after, params = before ++ (param, host) :: after → ∃ scope code test,
        Adds env (before.map (·.1.var)) scope ∧ CompiledIn compile context scope param.default code ∧
          .case test [assignStmt host code] ∈ cases := by
  induction params generalizing env position s cases with
  | nil =>
      cases ok
      exact ⟨.refl _, by simp⟩
  | cons pair params ih =>
      obtain ⟨param, host⟩ := pair
      obtain ⟨code, s₁, compiled, ok⟩ := ok_of_bind ok
      obtain ⟨binding, s₂, bound, ok⟩ := ok_of_bind ok
      obtain ⟨⟨env₁, others⟩, s₃, rest, ok⟩ := ok_of_bind ok
      cases ok
      obtain ⟨name, space⟩ := variableBinding_names bound
      obtain ⟨adds, made⟩ := ih rest
      have first : Adds env [param.var] (binding :: env) := .one name space env
      refine ⟨first.trans adds, fun before param' host' after same => ?_⟩
      cases before with
      | nil =>
          cases same
          exact ⟨env, code, _, .refl _, ⟨_, _, compiled⟩, List.mem_cons_self⟩
      | cons _ before =>
          cases same
          obtain ⟨scope, code', test, adds', compiled', member⟩ := made before param' host' after rfl
          exact ⟨scope, code', test, first.trans adds', compiled', List.mem_cons_of_mem _ member⟩

theorem bindDefaults_made {params : List (OptionalParam × String)} {position : Nat}
    (ok : bindDefaults compile context specials head position params s = .ok head' t) :
    head.GoesTo (params.map (·.1.var)) head' ∧
      DefaultsMade compile context head.env params head'.prologue := by
  obtain ⟨dynamic, s₁, -, ok⟩ := ok_of_bind ok
  split at ok
  · exact bindDefaultsInOrder_made ok
  · split at ok
    · rename_i none_
      cases ok
      obtain rfl := List.isEmpty_iff.mp none_
      exact ⟨⟨.refl _, fun _ => id⟩, by simp [DefaultsMade]⟩
    · obtain ⟨⟨env, cases⟩, s₂, made, ok⟩ := ok_of_bind ok
      cases ok
      obtain ⟨adds, each⟩ := defaultCases_made made
      refine ⟨⟨adds, fun _ has => has.add _⟩, fun before param host after same => ?_⟩
      obtain ⟨scope, code, test, adds', compiled, member⟩ := each before param host after same
      exact ⟨scope, code, adds', compiled,
        .case test cases (Prologue.has_add List.mem_cons_self) member⟩

theorem bindRest?_goesTo {first : Nat} {rest : Option SymbolId}
    (ok : bindRest? specials head first rest s = .ok head' t) : head.GoesTo rest.toList head' := by
  cases rest with
  | none =>
      cases ok
      exact ⟨.refl _, fun _ => id⟩
  | some rest =>
      obtain ⟨host, s₁, -, ok⟩ := ok_of_bind ok
      obtain ⟨index, s₂, -, ok⟩ := ok_of_bind ok
      exact (head.goesTo_add _).trans (bindParameter_goesTo ok)

/-- The variables of a keyword parameter in the order in which they are bound. -/
def keyBound (param : KeyParam) : List SymbolId := param.supplied.toList ++ [param.var]

/-- The defaults of keyword parameters, with what each sees of the others. -/
def KeyDefaultsMade (compile : FormCompiler) (context : Context) (env : Environment)
    (params : List KeyParam) (prologue : Prologue) : Prop :=
  ∀ before param after, params = before ++ param :: after → ∃ scope host code,
    Adds env (before.flatMap keyBound) scope ∧ CompiledIn compile context scope param.default code ∧
      prologue.Supplies host code

theorem bindKeys_made {params : List KeyParam} {index : String} {first : Nat} {keywords : List Expr}
    (ok : bindKeys compile context specials index first head params s = .ok (head', keywords) t) :
    head.GoesTo (params.flatMap keyBound) head' ∧
      KeyDefaultsMade compile context head.env params head'.prologue := by
  induction params generalizing head s keywords with
  | nil =>
      cases ok
      exact ⟨⟨.refl _, fun _ => id⟩, by simp [KeyDefaultsMade]⟩
  | cons param params ih =>
      obtain ⟨host, s₁, -, ok⟩ := ok_of_bind ok
      obtain ⟨keyword, s₂, -, ok⟩ := ok_of_bind ok
      obtain ⟨flag?, s₃, flagged, ok⟩ := ok_of_bind ok
      obtain ⟨code, s₄, compiled, ended⟩ := ok_of_bind ok
      -- The flag, if there is one, is bound after the default is compiled.
      have rest : ∀ head₁ : Head, head.GoesTo (param.supplied.toList) head₁ →
          head₁.prologue.Supplies host code → ∀ s₅, (do
            let head ← bindParameter specials head₁ param.var host
            let bound ← bindKeys compile context specials index first head params
            return (bound.1, keyword :: bound.2)) s₅ = .ok (head', keywords) t →
          head.GoesTo ((param :: params).flatMap keyBound) head' ∧
            KeyDefaultsMade compile context head.env (param :: params) head'.prologue := by
        intro head₁ goes supplies s₅ ok
        obtain ⟨head₂, s₆, bound, ok⟩ := ok_of_bind ok
        obtain ⟨⟨head₃, others⟩, s₇, rest, ok⟩ := ok_of_bind ok
        cases ok
        obtain ⟨further, made⟩ := ih rest
        have here : head.GoesTo (keyBound param) head₂ := goes.trans (bindParameter_goesTo bound)
        refine ⟨here.trans further, fun before param' after same => ?_⟩
        cases before with
        | nil =>
            cases same
            exact ⟨head.env, host, code, .refl _, ⟨_, _, compiled⟩,
              (supplies.goesTo (bindParameter_goesTo bound)).goesTo further⟩
        | cons _ before =>
            cases same
            obtain ⟨scope, host', code', adds, compiled', supplies'⟩ := made before param' after rfl
            exact ⟨scope, host', code', here.adds.trans adds, compiled', supplies'⟩
      dsimp only at ended
      have asked {stmts : List Stmt} {search test : Stmt} : test ∈ stmts ++ [search, test] :=
        List.mem_append_right _ (List.mem_cons_of_mem _ List.mem_cons_self)
      cases supplied : param.supplied with
      | none =>
          rw [supplied] at flagged rest
          cases flagged
          obtain ⟨_, _, ⟨⟩, ended⟩ := ok_of_bind ended
          exact rest _ (head.goesTo_add _) (.branch _ (Prologue.has_add asked)) _ ended
      | some flag =>
          rw [supplied] at flagged rest
          obtain ⟨pair, s₅, named, flagged⟩ := ok_of_bind flagged
          obtain ⟨name, s₆, -, named⟩ := ok_of_bind named
          cases named
          cases flagged
          obtain ⟨head₁, s₇, bound, ended⟩ := ok_of_bind ended
          refine rest _ ((head.goesTo_add _).trans (bindParameter_goesTo bound))
            (.branch (.binary .strictEq (.ident host) .undefined) ?_) _ ended
          exact (bindParameter_goesTo bound).keeps _ (Prologue.has_add asked)

theorem bindKeySection?_made {list : LambdaList} {first : Nat} (keyed : list.keys ≠ [] → list.hasKeys = true)
    (ok : bindKeySection? compile context specials head list first s = .ok head' t) :
    head.GoesTo (list.keys.flatMap keyBound) head' ∧
      KeyDefaultsMade compile context head.env list.keys head'.prologue := by
  unfold bindKeySection? at ok
  split at ok
  · obtain ⟨index, s₁, -, ok⟩ := ok_of_bind ok
    obtain ⟨⟨head₁, keywords⟩, s₂, bound, ok⟩ := ok_of_bind ok
    obtain ⟨goes, made⟩ := bindKeys_made bound
    dsimp only at ok
    split at ok
    · cases ok
      exact ⟨(head.goesTo_add _).trans goes, made⟩
    · obtain ⟨allowKey, s₃, -, ok⟩ := ok_of_bind ok
      obtain ⟨allow, s₄, -, ok⟩ := ok_of_bind ok
      cases ok
      refine ⟨((head.goesTo_add _).trans goes).add _, fun before param after same => ?_⟩
      obtain ⟨scope, host, code, adds, compiled, supplies⟩ := made before param after same
      exact ⟨scope, host, code, adds, compiled, supplies.goesTo (head₁.goesTo_add _)⟩
  · rename_i none_
    cases ok
    have nothing : list.keys = [] := by
      by_contra some_
      exact none_ (keyed some_)
    rw [nothing]
    exact ⟨⟨.refl _, fun _ => id⟩, by simp [KeyDefaultsMade]⟩

end Sections

section Lists

theorem split_of_getElem? {α : Type} {items : List α} {k : Nat} {item : α}
    (found : items[k]? = some item) : items = items.take k ++ item :: items.drop (k + 1) := by
  obtain ⟨bound, rfl⟩ := List.getElem?_eq_some_iff.mp found
  rw [List.getElem_cons_drop, List.take_append_drop]

namespace LambdaList

/-- The variables of a lambda list to the left of the default form of an optional parameter, which
comes after some others. -/
def leftOfOptional (list : LambdaList) (before : List OptionalParam) : List SymbolId :=
  list.required ++ before.flatMap OptionalParam.vars

/-- The variables to the left of the default form of a keyword parameter. -/
def leftOfKey (list : LambdaList) (before : List KeyParam) : List SymbolId :=
  list.required ++ list.optional.flatMap OptionalParam.vars ++ list.rest.toList ++
    before.flatMap KeyParam.vars

end LambdaList

variable {depth : Nat} {context : Context} {lambdaList : Value} {body : List Value}
  {name : Option SymbolId} {list : LambdaList} {parsed : Body} {code : Expr}
  {s s₁ s₂ t : CompileState} {specials : List SymbolId} {head : Head} {hosts : List String}

theorem mem_vars_keyBound {id : SymbolId} (params : List KeyParam) :
    id ∈ params.flatMap keyBound ↔ id ∈ params.flatMap KeyParam.vars := by
  simp [keyBound, KeyParam.vars, or_comm]

/-- What the default forms of a lambda list see of it. -/
structure DefaultScopes (compile : FormCompiler) (context : Context) (list : LambdaList)
    (prologue : Prologue) (hosts : List String) : Prop where
  /-- An optional parameter sees what is to its left, and all flags of optional parameters. -/
  optional : ∀ before param after, list.optional = before ++ param :: after →
    ∃ host scope code, hosts[list.required.length + before.length]? = some host ∧
      SeesJust (fun id => id ∈ list.leftOfOptional before ∨ id ∈ flagsOf list.optional)
        context.env scope ∧
      CompiledIn compile context scope param.default code ∧ prologue.Supplies host code
  /-- A keyword parameter sees what is to its left. -/
  key : ∀ before param after, list.keys = before ++ param :: after →
    ∃ host scope code, SeesJust (· ∈ list.leftOfKey before) context.env scope ∧
      CompiledIn compile context scope param.default code ∧ prologue.Supplies host code

theorem bindParameters_defaultScopes {compile : FormCompiler}
    (keyed : list.keys ≠ [] → list.hasKeys = true)
    (ok : bindParameters compile context specials list s = .ok (head, hosts) t) :
    DefaultScopes compile context list head.prologue hosts := by
  rw [bindParameters_eq] at ok
  obtain ⟨⟨head₁, requiredHosts⟩, s₁, ok₁, ok⟩ := ok_of_bind ok
  obtain ⟨⟨head₂, optionalHosts⟩, s₂, ok₂, ok⟩ := ok_of_bind ok
  obtain ⟨head₃, s₃, ok₃, ok⟩ := ok_of_bind ok
  obtain ⟨head₄, s₄, ok₄, ok⟩ := ok_of_bind ok
  obtain ⟨head₅, s₅, ok₅, ok⟩ := ok_of_bind ok
  cases ok
  obtain ⟨required, lengthRequired⟩ := bindRequired_goesTo ok₁
  obtain ⟨flags, lengthOptional⟩ := bindSupplied_goesTo ok₂
  obtain ⟨optional, defaults⟩ := bindDefaults_made ok₃
  have rest := bindRest?_goesTo ok₄
  obtain ⟨keys, keyDefaults⟩ := bindKeySection?_made keyed ok₅
  refine ⟨fun before param after same => ?_, fun before param after same => ?_⟩
  · have here : list.optional[before.length]? = some param := by simp [same]
    obtain ⟨host, at_⟩ : ∃ host, optionalHosts[before.length]? = some host :=
      ⟨_, List.getElem?_eq_getElem (by simp [lengthOptional, same])⟩
    have zipped : (list.optional.zip optionalHosts)[before.length]? = some (param, host) :=
      List.getElem?_zip_eq_some.mpr ⟨here, at_⟩
    obtain ⟨scope, code, adds, compiled, supplies⟩ := defaults _ param host _
      (split_of_getElem? zipped)
    have taken : ((list.optional.zip optionalHosts).take before.length).map (·.1.var) =
        before.map (·.var) := by
      have firsts : (list.optional.zip optionalHosts).map Prod.fst = list.optional :=
        List.map_fst_zip (by omega)
      calc ((list.optional.zip optionalHosts).take before.length).map (·.1.var)
          = (((list.optional.zip optionalHosts).map Prod.fst).take before.length).map (·.var) := by
            rw [← List.map_take, List.map_map]
            rfl
        _ = before.map (·.var) := by rw [firsts, same, List.take_left]
    rw [taken] at adds
    refine ⟨host, scope, code, ?_, ((required.adds.trans flags.adds).trans adds).seesJust fun id => ?_,
      compiled, (supplies.goesTo rest).goesTo keys⟩
    · rw [List.getElem?_append_right (by omega), ← at_]
      congr 1
      omega
    · have parts := (optionalVars_perm before).mem_iff (a := id)
      have within : id ∈ flagsOf before → id ∈ flagsOf list.optional := by
        rw [same, flagsOf, flagsOf, List.flatMap_append]
        exact List.mem_append_left _
      simp only [LambdaList.leftOfOptional, List.mem_append] at parts ⊢
      tauto
  · obtain ⟨scope, host, code, adds, compiled, supplies⟩ := keyDefaults before param after same
    refine ⟨host, scope, code, ?_, compiled, supplies⟩
    have whole := (((required.adds.trans flags.adds).trans optional.adds).trans rest.adds).trans adds
    refine whole.seesJust fun id => ?_
    have firsts : (list.optional.zip optionalHosts).map (·.1.var) = list.optional.map (·.var) := by
      have zipped : (list.optional.zip optionalHosts).map Prod.fst = list.optional :=
        List.map_fst_zip (by omega)
      conv_rhs => rw [← zipped, List.map_map]
      rfl
    have parts := (optionalVars_perm list.optional).mem_iff (a := id)
    simp only [LambdaList.leftOfKey, firsts, List.mem_append, mem_vars_keyBound] at parts ⊢
    tauto

/-- Wherever a lambda expression is compiled, the default form of a keyword parameter sees just the
parameters to its left, and that of an optional parameter sees just those and the supplied-p variables
of all optional parameters. All other names mean to it what they mean around the lambda expression. -/
theorem defaults_see
    (compiled : compileLambda (compileWithin depth) context lambdaList body name s = .ok code t)
    (read : parseLambdaList lambdaList s = .ok list s₁)
    (bodyRead : parseBody body true s₁ = .ok parsed s₂) :
    ∃ head hosts env u stmts,
      CompilesFunction depth context list parsed name s₂ code head hosts env u stmts ∧
        DefaultScopes (compileWithin depth) context list head.prologue hosts := by
  obtain ⟨head, hosts, env, u, stmts, parts, -⟩ := compileLambda_parts compiled read bodyRead
  obtain ⟨_, _, _, _, _, _, _, -, -, bound, -⟩ := id parts
  exact ⟨head, hosts, env, u, stmts, parts,
    bindParameters_defaultScopes (parseLambdaList_keyed lambdaList s list s₁ read) bound⟩

theorem defaults_see_optionalAndRest :
    let s := CompileState.reading optionalAndRest
    let list := optionalAndRestRead
    let parsed : Body := { forms := [.symbol SymbolId.declare] }
    parseLambdaList (.cons 0) s = .ok list s ∧ parseBody parsed.forms true s = .ok parsed s ∧
    ∃ code t, compileLambda (compileWithin 3) {} (.cons 0) parsed.forms none s = .ok code t ∧
      ∃ head hosts env u stmts, CompilesFunction 3 {} list parsed none s code head hosts env u stmts ∧
        DefaultScopes (compileWithin 3) {} list head.prologue hosts := by
  intro s list parsed
  have read : parseLambdaList (.cons 0) s = .ok list s := rfl
  have bodyRead : parseBody parsed.forms true s = .ok parsed s := rfl
  have ends : succeeds (compileLambda (compileWithin 3) {} (.cons 0) parsed.forms none) s = true := by
    decide +kernel
  obtain ⟨code, t, compiled⟩ := ok_of_succeeds ends
  exact ⟨read, bodyRead, code, t, compiled, defaults_see compiled read bodyRead⟩

/-- `(&OPTIONAL (FUNCTION SPECIAL SPECIAL))` -/
def ownFlag : List Cell :=
  [⟨.symbol SymbolId.ampOptional, .cons 1⟩, ⟨.cons 2, .nil⟩, ⟨.symbol SymbolId.function, .cons 3⟩,
    ⟨.symbol SymbolId.special, .cons 4⟩, ⟨.symbol SymbolId.special, .nil⟩]

/-- The script variable that the default of a function's only parameter is taken from. -/
def onlyDefault? : Expr → Option String
  | .function _ [_, _, .select _ [.case _ [.effect (.assign _ (.ident name))]], _] => some name
  | _ => none

/-- That of the lambda expression with the lambda list above, where a variable with the name of the
flag is bound around it. -/
def ownFlagDefault : Option String :=
  let (outer, bindings) := Bindings.initial.bind (.symbol SymbolId.special) .vars (.host "outer")
  match compileLambda (compileWithin 3) { env := [outer] } (.cons 0) [.symbol SymbolId.function] none
      { CompileState.reading ownFlag with bindings } with
  | .ok code _ => onlyDefault? code
  | .error _ _ => none

/-- The default is the flag of its own parameter, and not the variable around the lambda expression. -/
theorem default_sees_own_flag : ownFlagDefault = some "special_2" ∧ "special_2" ≠ "outer" := by
  decide +kernel

end Lists

end LispScript.Compiler
