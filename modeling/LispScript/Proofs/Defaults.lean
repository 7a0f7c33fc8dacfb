import LispScript.Proofs.ArgumentLoops
import LispScript.Proofs.Building
import LispScript.Proofs.Isolation

/-!
Default forms that are variables or literals. Compiling one leaves the image as it is, and its code
gives the value of the variable or the value that the unit has for the literal.
-/

namespace LispScript.Compiler

open Script Machine Discipline

variable {s s' t u : CompileState} {env env' env'' : Environment}

section Steps

/-- A state in which the compiler can go on in an environment. -/
structure Ready (s : CompileState) (env : Environment) : Prop where
  placed : s.bindings.Placed
  holds : s.bindings.Holds env
  bounded : Bounded s.counters
  named : ∀ (code : Nat) name, s.literals.names[code]? = some name → ∃ n, name = literalName n

/-- The compiler has gone on without a change of the image. -/
structure Onward (s t : CompileState) : Prop where
  image : t.image = s.image
  bindings : s.bindings.OnlyGains t.bindings
  counters : s.counters.Leads t.counters
  names : ∀ (code : Nat) name, s.literals.names[code]? = some name → t.literals.names[code]? = some name

theorem Onward.refl (s : CompileState) : Onward s s :=
  ⟨rfl, .refl _, .refl _, fun _ _ held => held⟩

theorem Onward.trans (first : Onward s t) (second : Onward t u) : Onward s u where
  image := second.image.trans first.image
  bindings := first.bindings.trans second.bindings
  counters := first.counters.trans second.counters
  names code name held := second.names code name (first.names code name held)

/-- A step that goes on in an environment. -/
structure GoesOn (env : Environment) (s t : CompileState) : Prop where
  onward : Onward s t
  ready : Ready t env

theorem GoesOn.trans (first : GoesOn env s t) (second : GoesOn env t u) : GoesOn env s u :=
  ⟨first.onward.trans second.onward, second.ready⟩

theorem Ready.stays (ready : Ready s env) : GoesOn env s s := ⟨.refl s, ready⟩

theorem Ready.withBindings (ready : Ready s env) {bindings : Bindings}
    (gains : s.bindings.OnlyGains bindings) : GoesOn env s { s with bindings } where
  onward := ⟨rfl, gains, .refl _, fun _ _ held => held⟩
  ready := ⟨gains.placed ready.placed, fun binding member => (ready.holds binding member).mono
    gains.size, ready.bounded, ready.named⟩

theorem freshVariable_ok (ready : Ready s env) {hint name : String}
    (ok : freshVariable hint s = .ok name t) :
    GoesOn env s t ∧ Made s.counters t.counters name := by
  unfold freshVariable onCounters at ok
  dsimp only at ok
  split at ok
  · contradiction
  · rename_i goes
    cases ok
    have less : s.counters.vars < next s.counters.vars :=
      lt_next ready.bounded.vars fun same =>
        goes (congrArg (fun n => { s.counters with vars := n }) same)
    refine ⟨⟨⟨rfl, .refl _, ⟨Nat.le_of_lt less, Nat.le_refl _, Nat.le_refl _, Nat.le_refl _⟩,
      fun _ _ held => held⟩, ready.placed, ready.holds, ?_, ready.named⟩, ?_⟩
    · exact ⟨next_le _, ready.bounded.literals, ready.bounded.blocks, ready.bounded.tagbodies⟩
    · exact .variable_ hint _ less (Nat.le_refl _)

theorem freshVariableFor_ok (ready : Ready s env) {id : SymbolId} {name : String}
    (ok : freshVariableFor id s = .ok name t) :
    GoesOn env s t ∧ Made s.counters t.counters name :=
  freshVariable_ok ready (ok :)

end Steps

section Variables

/-- A variable means a script variable. -/
def IsHost (s : CompileState) (env : Environment) (id : SymbolId) (host : String) : Prop :=
  s.bindings.meaning? env (.ofSymbol id) .vars = some { reference := .host host }

theorem IsHost.unique {id : SymbolId} {host other : String} (is : IsHost s env id host)
    (also : IsHost s env id other) : host = other := by
  have same := Option.some.inj (is.symm.trans also)
  exact Reference.host.inj (congrArg Meaning.reference same)

/-- A variable that is not dynamic. -/
def IsLexical (specials : List SymbolId) (s : CompileState) (id : SymbolId) : Prop :=
  id ∉ specials ∧ (s.bindings.globalMeaning id .vars).special = false

theorem IsLexical.later {specials : List SymbolId} {id : SymbolId} (lexical : IsLexical specials s id)
    (ready : Ready s env) (onward : Onward s t) : IsLexical specials t id :=
  ⟨lexical.1, (onward.bindings.globalMeaning ready.placed id .vars).symm ▸ lexical.2⟩

/-- The environment has some more variables, and all others mean what they did. -/
structure Binds (bound : List SymbolId) (s t : CompileState) (env env' : Environment) : Prop where
  onward : Onward s t
  ready : Ready t env'
  meaning : ∀ id, id ∉ bound → t.bindings.meaning? env' (.ofSymbol id) .vars =
    s.bindings.meaning? env (.ofSymbol id) .vars
  functions : ∀ name, t.bindings.meaning? env' name .functions = s.bindings.meaning? env name .functions
  locals : (∀ binding ∈ env, s.bindings.IsLocal binding) → ∀ binding ∈ env', t.bindings.IsLocal binding
  hosts : (∀ name, env.Hosts name → Made {} s.counters name) →
    ∀ name, env'.Hosts name → Made {} t.counters name

theorem Made.ever {c c' : Counters} {name : String} (made : Made c c' name) : Made {} c' name :=
  made.right ⟨Nat.zero_le _, Nat.zero_le _, Nat.zero_le _, Nat.zero_le _⟩

theorem Binds.isHost {bound : List SymbolId} (binds : Binds bound s t env env') {id : SymbolId}
    (free : id ∉ bound) {host : String} : IsHost t env' id host ↔ IsHost s env id host := by
  rw [IsHost, IsHost, binds.meaning id free]

theorem GoesOn.binds (goes : GoesOn env s t) (ready : Ready s env) : Binds [] s t env env :=
  ⟨goes.onward, goes.ready, fun _ _ => goes.onward.bindings.meaning? ready.placed ready.holds _ _,
    fun _ => goes.onward.bindings.meaning? ready.placed ready.holds _ _,
    fun all binding member => goes.onward.bindings.locals binding (all binding member),
    fun all name hosts => (all name hosts).left goes.onward.counters⟩

theorem Binds.trans {bound more : List SymbolId} (first : Binds bound s t env env')
    (second : Binds more t u env' env'') : Binds (bound ++ more) s u env env'' where
  onward := first.onward.trans second.onward
  ready := second.ready
  meaning id free := by
    rw [List.mem_append, not_or] at free
    rw [second.meaning id free.2, first.meaning id free.1]
  functions name := (second.functions name).trans (first.functions name)
  locals all := second.locals (first.locals all)
  hosts all := second.hosts (first.hosts all)

theorem Binds.mono {bound more : List SymbolId} (binds : Binds bound s t env env')
    (wider : bound ⊆ more) : Binds more s t env env' :=
  { binds with meaning := fun id free => binds.meaning id fun member => free (wider member) }

theorem ofSymbol_eql (id other : SymbolId) :
    (Value.ofSymbol id).eql (.ofSymbol other) = true ↔ id = other := by
  constructor
  · intro same
    have equal := congrArg Value.asSymbol? (Bindings.eq_of_ofSymbol_eql same)
    rw [Value.asSymbol?_ofSymbol, Value.asSymbol?_ofSymbol] at equal
    exact (Option.some.inj equal).symm
  · rintro rfl
    unfold Value.ofSymbol
    split <;> simp [Value.eql]

theorem bindsSpecial_lexical {specials : List SymbolId} {id : SymbolId}
    (lexical : IsLexical specials s id) : bindsSpecial id specials s = .ok false s := by
  obtain ⟨undeclared, plain⟩ := lexical
  unfold bindsSpecial
  have absent : specials.contains id = false := by simpa using undeclared
  rw [absent, if_neg Bool.false_ne_true, bind_get]
  unfold Bindings.globalMeaning at plain
  cases found : s.bindings.getGlobal? id .vars with
  | none => rfl
  | some binding =>
      rw [found] at plain
      exact congrArg (EStateM.Result.ok · s) plain

theorem variableBinding_ok (ready : Ready s env) {id : SymbolId} {host : String} {binding : Binding}
    (made : Made {} s.counters host)
    (ok : variableBinding id host false s = .ok binding t) :
    Binds [id] s t env (binding :: env) ∧ IsHost t (binding :: env) id host := by
  cases ok
  have gains := Bindings.OnlyGains.bindWith s.bindings (.ofSymbol id) .vars (.host host) {}
  have goes := ready.withBindings gains
  have meaning := fun name space => Bindings.meaning?_cons
    (s.bindings.bindWith (.ofSymbol id) .vars (.host host) {}).2
    (s.bindings.bindWith (.ofSymbol id) .vars (.host host) {}).1 env name space
  refine ⟨⟨goes.onward, ⟨goes.ready.placed, ?_, ready.bounded, ready.named⟩, fun other free => ?_,
    fun name => ?_, fun all binding member => ?_, ?_⟩, ?_⟩
  · intro binding member
    rcases List.mem_cons.mp member with rfl | member
    · exact Bindings.has_bindWith ..
    · exact goes.ready.holds binding member
  · refine (meaning (.ofSymbol other) .vars).trans ?_
    rw [if_neg fun here => free ?_]
    · exact gains.meaning? ready.placed ready.holds _ _
    · exact List.mem_singleton.mpr ((ofSymbol_eql id other).mp here.2).symm
  · refine (meaning name .functions).trans ?_
    rw [if_neg (by rintro ⟨⟨⟩, -⟩)]
    exact gains.meaning? ready.placed ready.holds _ _
  · rcases List.mem_cons.mp member with rfl | member
    · exact Bindings.isLocal_bindWith ready.placed ..
    · exact gains.locals binding (all binding member)
  · rintro all name ⟨binding, member, hosts⟩
    rcases List.mem_cons.mp member with rfl | member
    · cases hosts
      exact made
    · exact all name ⟨binding, member, hosts⟩
  · refine (meaning (.ofSymbol id) .vars).trans ?_
    rw [if_pos ⟨rfl, (ofSymbol_eql id id).mpr rfl⟩, Bindings.meaning_bindWith]
    rfl

theorem bindParameter_ok {head head' : Head} (ready : Ready s head.env) {specials : List SymbolId}
    {var : SymbolId} {host : String} (lexical : IsLexical specials s var) (made : Made {} s.counters host)
    (ok : bindParameter specials head var host s = .ok head' t) :
    head'.prologue = head.prologue ∧ Binds [var] s t head.env head'.env ∧
      IsHost t head'.env var host := by
  unfold bindParameter at ok
  rw [bind_ended (bindsSpecial_lexical lexical)] at ok
  change (variableBinding var host false >>= fun binding =>
    pure { env := binding :: head.env, prologue := head.prologue } : Compile Head) s = _ at ok
  obtain ⟨binding, t', bound, ended⟩ := ok_of_bind ok
  cases ended
  exact ⟨rfl, variableBinding_ok ready made bound⟩

end Variables

section Literals

/-- The values of the literals of a unit are found in a scope. -/
structure HoldsLiterals (s : CompileState) (made : LiteralKey → Value) (i : Image) (c : Nat) :
    Prop where
  held : ∀ key name, s.literals.names[key.code]? = some name →
    i.heap.lookupVariable? c name = some (made key)
  symbol : ∀ id, made (.symbol id) = .symbol id
  character : ∀ ch, made (.character ch) = .character ch

theorem HoldsLiterals.earlier {made : LiteralKey → Value} {i : Image} {c : Nat}
    (holds : HoldsLiterals t made i c) (onward : Onward s t) : HoldsLiterals s made i c :=
  ⟨fun key name held => holds.held key name (onward.names key.code name held), holds.symbol,
    holds.character⟩

theorem HoldsLiterals.touches {made : LiteralKey → Value} {i j : Image} {c : Nat}
    {names : String → Prop} (holds : HoldsLiterals s made i c)
    (named : ∀ (code : Nat) name, s.literals.names[code]? = some name → ∃ n, name = literalName n)
    (touches : Touches c names i j) (free : ∀ n, ¬ names (literalName n)) :
    HoldsLiterals s made j c := by
  refine ⟨fun key name held => ?_, holds.symbol, holds.character⟩
  obtain ⟨n, rfl⟩ := named _ _ held
  rw [touches.lookup (free n)]
  exact holds.held key _ held

/-- An expression gives a value of which something is known, and changes no variable. -/
def GetsOf (call : Caller) (turns c : Nat) (i : Image) (code : Expr) (is : Value → Prop) : Prop :=
  ∃ value j, evalExpr call turns c code i = .ok value j ∧ Touches c (fun _ => False) i j ∧ is value

theorem GetsOf.settles {call : Caller} {turns c : Nat} {i : Image} {code : Expr}
    {is : Value → Prop} {value : Value} (settles : Settles call turns c i code value)
    (known : is value) : GetsOf call turns c i code is :=
  ⟨value, i, settles, .refl .., known⟩

/-- Code that is known to give the value that a unit made, where the literals of the unit are
found. -/
def IsMade (s : CompileState) (code : Expr) (value : (LiteralKey → Value) → Value) : Prop :=
  ∀ call turns c i made, HoldsLiterals s made i c → Settles call turns c i code (value made)

theorem hoist_ok (ready : Ready s env) {key : LiteralKey} {make : Compile Expr} {code : Expr}
    (makes : ∀ value s', make s = .ok value s' → GoesOn env s s')
    (ok : hoist key make s = .ok code t) :
    GoesOn env s t ∧ IsMade t code fun made => made key := by
  have known : ∀ {t : CompileState} {name}, t.literals.names[key.code]? = some name →
      IsMade t (.ident name) fun made => made key :=
    fun held _ _ _ _ _ holds => evalExpr_ident (holds.held key _ held)
  unfold hoist at ok
  rw [bind_get] at ok
  cases found : s.literals.names[key.code]? with
  | some name =>
      rw [found] at ok
      cases ok
      exact ⟨ready.stays, known found⟩
  | none =>
      rw [found] at ok
      obtain ⟨value, s₁, made, ok⟩ := ok_of_bind ok
      obtain ⟨name, s₂, fresh, ok⟩ := ok_of_bind ok
      obtain ⟨onward, ready₁⟩ := makes value s₁ made
      unfold onCounters at fresh
      dsimp only at fresh
      split at fresh
      · contradiction
      · rename_i goes
        cases fresh
        cases ok
        have less : s₁.counters.literals < next s₁.counters.literals :=
          lt_next ready₁.bounded.literals fun same =>
            goes (congrArg (fun n => { s₁.counters with literals := n }) same)
        have inserted : ∀ code, (s₁.literals.names.insert key.code
            (literalName (next s₁.counters.literals)))[code]? =
              if key.code = code then some (literalName (next s₁.counters.literals))
              else s₁.literals.names[code]? := fun code => by
          simp only [Std.TreeMap.getElem?_insert, compare_eq_iff_eq]
        refine ⟨⟨⟨onward.image, onward.bindings, onward.counters.trans
          ⟨Nat.le_refl _, Nat.le_of_lt less, Nat.le_refl _, Nat.le_refl _⟩,
          fun code name held => ?_⟩, ready₁.placed, ready₁.holds,
          ⟨ready₁.bounded.vars, next_le _, ready₁.bounded.blocks, ready₁.bounded.tagbodies⟩,
          fun code name held => ?_⟩, known ?_⟩
        · refine (inserted code).trans ?_
          rw [if_neg, onward.names code name held]
          rintro rfl
          rw [found] at held
          cases held
        · have held := (inserted code).symm.trans held
          split at held
          · exact ⟨_, (Option.some.inj held).symm⟩
          · exact ready₁.named code name held
        · exact (inserted key.code).trans (if_pos rfl)

theorem symbolLiteral_ok (ready : Ready s env) {id : SymbolId} {code : Expr}
    (ok : symbolLiteral id s = .ok code t) :
    GoesOn env s t ∧ IsMade t code fun _ => .ofSymbol id := by
  unfold symbolLiteral at ok
  split at ok
  · rename_i isNil
    cases ok
    subst isNil
    exact ⟨ready.stays, fun _ _ _ _ _ _ => settles_nil⟩
  · rename_i notNil
    split at ok
    · rename_i isT
      cases ok
      subst isT
      exact ⟨ready.stays, fun _ _ _ _ _ _ => settles_t⟩
    · have makes : ∀ value s', (do return symbolInitializer (← symbols) id : Compile Expr) s =
          .ok value s' → GoesOn env s s' := by
        intro value s' made
        cases made
        exact ready.stays
      obtain ⟨goes, isMade⟩ := hoist_ok ready makes ok
      refine ⟨goes, fun call turns c i made holds => ?_⟩
      have same : Value.ofSymbol id = made (.symbol id) := by
        rw [holds.symbol, Value.ofSymbol, if_neg notNil]
      exact same ▸ isMade call turns c i made holds

theorem mapM_goesOn {f : Value → Compile Expr}
    (each : ∀ item s code t, Ready s env → f item s = .ok code t → GoesOn env s t)
    {items : List Value} {codes : List Expr} (ready : Ready s env)
    (ok : items.mapM f s = .ok codes t) : GoesOn env s t := by
  induction items generalizing s codes with
  | nil =>
      cases ok
      exact ready.stays
  | cons item rest ih =>
      rw [List.mapM_cons] at ok
      obtain ⟨code, s₁, first, ok⟩ := ok_of_bind ok
      obtain ⟨codes, s₂, others, ended⟩ := ok_of_bind ok
      cases ended
      have goes := each item s code s₁ ready first
      exact goes.trans (ih goes.ready others)

/-- The code of a literal gives the value that the unit has for it. -/
theorem literalWithin_ok (ready : Ready s env) {depth : Nat} {datum : Value} {code : Expr}
    (ok : literalWithin depth datum s = .ok code t) :
    GoesOn env s t ∧ ∀ call turns c i made, HoldsLiterals t made i c →
      GetsOf call turns c i code (LiteralValue made datum) := by
  induction depth generalizing s t datum code with
  | zero => cases ok
  | succ depth ih =>
      cases datum with
      | nil =>
          cases ok
          exact ⟨ready.stays, fun _ _ _ _ _ _ => .settles settles_nil rfl⟩
      | number n =>
          cases ok
          exact ⟨ready.stays, fun _ _ _ _ _ _ => .settles (by rw [Settles, evalExpr]; rfl) rfl⟩
      | string address text =>
          cases ok
          refine ⟨ready.stays, fun call turns c i made _ => ?_⟩
          exact ⟨_, _, rfl, .allocString c _ i text, _, rfl⟩
      | symbol id =>
          obtain ⟨goes, isMade⟩ := symbolLiteral_ok ready ok
          exact ⟨goes, fun call turns c i made holds => .settles (isMade call turns c i made holds)
            rfl⟩
      | character ch =>
          have makes : ∀ value s', (do
              return .callRoutine .character [.number (Float.ofNat ch.toNat)] : Compile Expr) s =
                .ok value s' → GoesOn env s s' := by
            intro value s' made
            cases made
            exact ready.stays
          obtain ⟨goes, isMade⟩ := hoist_ok ready makes ok
          exact ⟨goes, fun call turns c i made holds =>
            .settles (isMade call turns c i made holds) (holds.character ch)⟩
      | cons address =>
          obtain ⟨goes, isMade⟩ := hoist_ok ready (fun value s' made => by
            change (literalWithin depth _ >>= _) s = _ at made
            obtain ⟨car, s₁, first, made⟩ := ok_of_bind made
            obtain ⟨cdr, s₂, second, ended⟩ := ok_of_bind made
            cases ended
            have goes := (ih ready first).1
            exact goes.trans (ih goes.ready second).1) ok
          exact ⟨goes, fun call turns c i made holds =>
            .settles (isMade call turns c i made holds) rfl⟩
      | vector address =>
          obtain ⟨goes, isMade⟩ := hoist_ok ready (fun value s' made => by
            change (List.mapM (literalWithin depth) _ >>= _) s = _ at made
            obtain ⟨items, s₁, all, ended⟩ := ok_of_bind made
            cases ended
            exact mapM_goesOn (fun item s code t ready ok => (ih ready ok).1) ready all) ok
          exact ⟨goes, fun call turns c i made holds =>
            .settles (isMade call turns c i made holds) rfl⟩
      | _ => cases ok

theorem literal_ok (ready : Ready s env) {datum : Value} {code : Expr}
    (ok : literal datum s = .ok code t) :
    GoesOn env s t ∧ ∀ call turns c i made, HoldsLiterals t made i c →
      GetsOf call turns c i code (LiteralValue made datum) :=
  literalWithin_ok ready (ok : literalWithin s.image.heap.size datum s = .ok code t)

end Literals

section Defaults

variable {context : Context} {left : List SymbolId} {form : Value}
  {code : Expr} {depth : Nat}

/-- The code of a variable is the script variable that it means. -/
theorem compileSymbol_host (placed : s.bindings.Placed) (holds : s.bindings.Holds context.env)
    {id : SymbolId} {name : String} (isHost : IsHost s context.env id name) (notT : id ≠ SymbolId.t)
    (notNil : id ≠ SymbolId.nil) (notKeyword : s.image.symbols.isKeyword id = false)
    (ok : compileSymbol context id s = .ok code t) :
    (∃ bindings, s.bindings.OnlyGains bindings ∧ t = { s with bindings }) ∧ code = .ident name := by
  obtain ⟨binding, bindings, resolved, gains, has, -, -, means⟩ :=
    Bindings.resolve_ofSymbol placed holds id (.inl rfl : Namespace.vars = .vars ∨ _)
  have meaning : bindings.meaning binding = { reference := .host name } :=
    Option.some.inj (means.symm.trans isHost)
  have reference : binding.reference = .host name := congrArg Meaning.reference meaning
  have used : s.bindings.OnlyGains (bindings.markUsed binding) := gains.trans (.markUsed bindings binding)
  have found : Compiler.resolve context (.symbol id) .vars s =
      .ok (some binding) { s with bindings } := by
    have same : Value.ofSymbol id = .symbol id := by rw [Value.ofSymbol, if_neg notNil]
    rw [same] at resolved
    unfold Compiler.resolve onBindings
    dsimp only
    rw [resolved]
  unfold compileSymbol at ok
  change (if id = SymbolId.t || s.image.symbols.isKeyword id then _ else _ : Compile Expr) s = _ at ok
  rw [if_neg (by simp [notT, notKeyword])] at ok
  have marked : markUsed binding { s with bindings } =
      .ok () { s with bindings := bindings.markUsed binding } := rfl
  rw [bind_ended found] at ok
  dsimp only at ok
  rw [bind_ended marked] at ok
  have host : hostVariable? binding { s with bindings := bindings.markUsed binding } =
      .ok (some name) { s with bindings := bindings.markUsed binding } := by
    unfold hostVariable?
    rw [reference]
    change EStateM.Result.ok (if ((bindings.markUsed binding).declared binding).special then none
      else some name) _ = _
    have still := (Bindings.OnlyGains.markUsed bindings binding).meaning binding has
    have special : ((bindings.markUsed binding).declared binding).special = false :=
      congrArg Meaning.special (still.trans meaning)
    rw [special]
    rfl
  rw [reference] at ok
  dsimp only at ok
  rw [bind_ended host] at ok
  cases ok
  exact ⟨⟨_, used, rfl⟩, rfl⟩

theorem compileSymbol_reference (ready : Ready s context.env) {id : SymbolId} {name : String}
    (isHost : IsHost s context.env id name) (notT : id ≠ SymbolId.t) (notNil : id ≠ SymbolId.nil)
    (notKeyword : s.image.symbols.isKeyword id = false)
    (ok : compileSymbol context id s = .ok code t) :
    GoesOn context.env s t ∧ code = .ident name := by
  obtain ⟨⟨bindings, gains, rfl⟩, same⟩ :=
    compileSymbol_host ready.placed ready.holds isHost notT notNil notKeyword ok
  exact ⟨ready.withBindings gains, same⟩

theorem cell_of_getElem? {heap : Heap} {a : Nat} {cell : Cell} (found : heap.cells[a]? = some cell) :
    heap.cell a = cell := by
  rw [Heap.cell, Array.getD_eq_getD_getElem?, found, Option.getD_some]

theorem isForm_of_quoted? {heap : Heap} {address : Address} {datum : Value}
    (quotes : quoted? heap address = some datum) :
    IsForm heap .quote [datum] (.cons address) := by
  obtain ⟨next, first, second⟩ := quoted?_eq_some.mp quotes
  refine ⟨address, rfl, by rw [cell_of_getElem? first], ?_⟩
  rw [cell_of_getElem? first]
  obtain ⟨bound, -⟩ := Array.getElem?_eq_some_iff.mp second
  obtain ⟨n, size_eq⟩ : ∃ n, heap.cells.size = n + 1 := ⟨heap.cells.size - 1, by omega⟩
  simp [Heap.listItems?, Heap.splitDotted, size_eq, Heap.spineFrom, cell_of_getElem? second]

/-- The code of a default form that is a variable or a literal gives what the form says. -/
theorem compileDefault_ok (ready : Ready s context.env) (simple : IsSimple s.image left form)
    (hosts : ∀ id ∈ left, id ≠ SymbolId.nil ∧ ∃ name, IsHost s context.env id name)
    (ok : compileWithin depth context form s = .ok code t) :
    GoesOn context.env s t ∧ ∀ host : SymbolId → String,
      (∀ id ∈ left, IsHost s context.env id (host id)) → ∀ call turns c i made,
      HoldsLiterals t made i c → c < i.heap.scopes.size →
      (∀ id ∈ left, ∃ value, i.own? c (host id) = some value) →
      GetsOf call turns c i code
        (DefaultHas s.image made (fun id value => i.own? c (host id) = some value) form) := by
  obtain ⟨read, reads, within⟩ := simple
  have literally : ∀ datum, defaultForm? s.image form = some (.literal datum) →
      (GoesOn context.env s t ∧ ∀ call turns c i made, HoldsLiterals t made i c →
        GetsOf call turns c i code (LiteralValue made datum)) →
      GoesOn context.env s t ∧ ∀ host : SymbolId → String,
        (∀ id ∈ left, IsHost s context.env id (host id)) → ∀ call turns c i made,
        HoldsLiterals t made i c → c < i.heap.scopes.size →
        (∀ id ∈ left, ∃ value, i.own? c (host id) = some value) →
        GetsOf call turns c i code
          (DefaultHas s.image made (fun id value => i.own? c (host id) = some value) form) := by
    intro datum reads ⟨goes, gets⟩
    refine ⟨goes, fun host _ call turns c i made holds _ _ => ?_⟩
    obtain ⟨value, j, ran, touches, is⟩ := gets call turns c i made holds
    exact ⟨value, j, ran, touches, _, reads, is⟩
  cases depth with
  | zero => cases ok
  | succ depth =>
      cases form with
      | symbol id =>
          have reads_eq : defaultForm? s.image (.symbol id) =
              if id = SymbolId.t ∨ s.image.symbols.isKeyword id = true then
                some (.literal (.symbol id)) else some (.reference id) := by
            simp [defaultForm?]
          by_cases constant : id = SymbolId.t ∨ s.image.symbols.isKeyword id = true
          · rw [if_pos constant] at reads_eq
            have coded : symbolLiteral id s = .ok code t := by
              change compileSymbol context id s = _ at ok
              unfold compileSymbol at ok
              change (if id = SymbolId.t || s.image.symbols.isKeyword id then _ else _ :
                Compile Expr) s = _ at ok
              rw [if_pos (by simpa using constant)] at ok
              exact ok
            obtain ⟨goes, isMade⟩ := symbolLiteral_ok ready coded
            exact literally _ reads_eq ⟨goes, fun call turns c i made holds =>
              .settles (isMade call turns c i made holds) rfl⟩
          · rw [if_neg constant] at reads_eq
            obtain rfl := Option.some.inj (reads_eq.symm.trans reads)
            rw [not_or] at constant
            have member := within id rfl
            obtain ⟨notNil, name, isHost⟩ := hosts id member
            obtain ⟨goes, rfl⟩ := compileSymbol_reference ready isHost constant.1 notNil
              (Bool.eq_false_iff.mpr constant.2) ok
            refine ⟨goes, fun host agrees call turns c i made _ bound there => ?_⟩
            obtain ⟨value, held⟩ := there id member
            have same := (agrees id member).unique isHost
            exact .settles (evalExpr_ident (lookupVariable?_own bound (same ▸ held)))
              ⟨_, reads_eq, held⟩
      | cons address =>
          obtain ⟨datum, quotes, rfl⟩ := Option.map_eq_some_iff.mp reads
          rw [compileWithin_special (isForm_of_quoted? quotes)] at ok
          exact literally datum reads (literal_ok ready ok)
      | _ => exact literally _ rfl (literal_ok ready ok)

theorem IsSimple.mono {image : Image} {more : List SymbolId} (simple : IsSimple image left form)
    (wider : left ⊆ more) : IsSimple image more form := by
  obtain ⟨read, reads, within⟩ := simple
  exact ⟨read, reads, fun id same => wider (within id same)⟩

/-- Only the variables to the left matter. -/
theorem DefaultHas.mono {image : Image} {made : LiteralKey → Value} {value : Value}
    {gives gives' : SymbolId → Value → Prop} (has : DefaultHas image made gives form value)
    (simple : IsSimple image left form) (still : ∀ id ∈ left, ∀ value, gives id value →
      gives' id value) : DefaultHas image made gives' form value := by
  obtain ⟨read, reads, is⟩ := has
  obtain ⟨same, reads', within⟩ := simple
  obtain rfl := Option.some.inj (reads.symm.trans reads')
  refine ⟨read, reads, ?_⟩
  cases read with
  | reference id => exact still id (within id rfl) value is
  | literal datum => exact is

/-- Default forms are read the same when there is more in the heap. -/
theorem defaultForm?_keeps {image later : Image} (cells : ∀ (a : Nat) cell,
    image.heap.cells[a]? = some cell → later.heap.cells[a]? = some cell)
    (symbols : later.symbols = image.symbols) {read : DefaultForm}
    (reads : defaultForm? image form = some read) : defaultForm? later form = some read := by
  cases form with
  | cons address =>
      obtain ⟨datum, quotes, rfl⟩ := Option.map_eq_some_iff.mp reads
      obtain ⟨next, first, second⟩ := quoted?_eq_some.mp quotes
      exact Option.map_eq_some_iff.mpr
        ⟨datum, quoted?_eq_some.mpr ⟨next, cells _ _ first, cells _ _ second⟩, rfl⟩
  | symbol id =>
      unfold defaultForm? at reads ⊢
      rw [symbols]
      exact reads
  | _ => exact reads

end Defaults

end LispScript.Compiler
