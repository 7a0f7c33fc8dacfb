import LispScript.Proofs.Defaults
import LispScript.Proofs.Heads

/-!
The head of a function at work. Each part of it gives variables of the activation's scope their values,
and those that other parts have set stay as they are, since no name is made twice.
-/

namespace LispScript.Compiler

open Script Machine Discipline

variable {s s₁ s₂ t u : CompileState} {env env' : Environment} {head head' : Head}
  {specials : List SymbolId} {call : Caller} {turns c position : Nat} {args : List Value}
  {i j : Image}

section Activations

/-- An activation with the given arguments, in the reach of the literals of its unit. -/
structure Entered (made : LiteralKey → Value) (args : List Value) (c : Nat) (u : CompileState)
    (i : Image) : Prop where
  receiving : Receiving c args i
  literals : HoldsLiterals u made i c
  named : ∀ (code : Nat) name, u.literals.names[code]? = some name → ∃ n, name = literalName n

theorem Made.ne_arguments {c c' : Counters} {name : String} (made : Made c c' name) :
    name ≠ "arguments" := by
  rintro rfl
  exact made.unreserved (by decide)

theorem Entered.earlier {made : LiteralKey → Value} (entered : Entered made args c u i)
    (onward : Onward t u) : Entered made args c t i :=
  ⟨entered.receiving, entered.literals.earlier onward,
    fun code name held => entered.named code name (onward.names code name held)⟩

theorem Entered.touches {made : LiteralKey → Value} {names : String → Prop}
    (entered : Entered made args c u i) (touches : Touches c names i j)
    (generated : ∀ name, names name → ∃ d d', Made d d' name) : Entered made args c u j := by
  refine ⟨entered.receiving.touches touches fun changed => ?_, entered.literals.touches entered.named
    touches fun n changed => ?_, entered.named⟩
  · obtain ⟨_, _, made⟩ := generated _ changed
    exact made.ne_arguments rfl
  · obtain ⟨_, _, made⟩ := generated _ changed
    exact made.ne_literal n rfl

end Activations

section Positional

theorem newHosts_cons {c₀ c₁ c₂ : Counters} {host : String} {n : Nat} {hosts : List String}
    (made : Made c₀ c₁ host) (new : Discipline.NewHosts c₁ c₂ n hosts) (leads : c₀.Leads c₁)
    (leads' : c₁.Leads c₂) : Discipline.NewHosts c₀ c₂ (n + 1) (host :: hosts) := by
  rw [Nat.add_comm]
  exact (NewHosts.one made).append new leads leads'

/-- Required parameters mean the script parameters that are made for them. -/
theorem bindRequired_ok {vars : List SymbolId} {hosts : List String} (ready : Ready s head.env)
    (lexical : ∀ var ∈ vars, IsLexical specials s var) (distinct : vars.Nodup)
    (ok : bindRequired specials head vars s = .ok (head', hosts) t) :
    head'.prologue = head.prologue ∧ Binds vars s t head.env head'.env ∧
      Discipline.NewHosts s.counters t.counters vars.length hosts ∧
      List.Forall₂ (IsHost t head'.env) vars hosts := by
  induction vars generalizing s head hosts with
  | nil =>
      cases ok
      exact ⟨rfl, ready.stays.binds ready, .nil _ _, .nil⟩
  | cons var vars ih =>
      obtain ⟨new, others⟩ := List.nodup_cons.mp distinct
      rw [bindRequired] at ok
      obtain ⟨host, s₁, fresh, ok⟩ := ok_of_bind ok
      obtain ⟨head₂, s₂, bound, ok⟩ := ok_of_bind ok
      obtain ⟨⟨head₃, rest⟩, s₃, more, ended⟩ := ok_of_bind ok
      cases ended
      obtain ⟨goes, made⟩ := freshVariableFor_ok ready fresh
      obtain ⟨same, binds, isHost⟩ := bindParameter_ok goes.ready
        ((lexical var List.mem_cons_self).later ready goes.onward) made.ever bound
      have before : Binds [var] s s₂ head.env head₂.env := (goes.binds ready).trans binds
      obtain ⟨same', binds', newHosts, hosts⟩ := ih binds.ready (fun other member =>
        (lexical other (List.mem_cons_of_mem _ member)).later ready before.onward) others more
      refine ⟨same'.trans same, before.trans binds', ?_, .cons ((binds'.isHost new).mpr isHost) hosts⟩
      exact newHosts_cons (made.left binds.onward.counters) newHosts before.onward.counters
        binds'.onward.counters

/-- The variables that tell which optional parameters were given. -/
def flagsOf (params : List OptionalParam) : List SymbolId := params.flatMap (·.supplied.toList)

theorem exec_flagStmt (receiving : Receiving c args i) (flag : String) (position : Nat) :
    exec call turns c (flagStmt flag position) i =
      .ok .normal (i.setOwn c flag (.ofBool (decide (position < args.length - 1)))) := by
  have small : args.length - 1 < Number.exactLimit :=
    Nat.lt_of_le_of_lt (Nat.sub_le ..) receiving.short
  have given : Settles call turns c i (.binary .gt argumentCount (countLiteral position))
      (.bool (decide (position < args.length - 1))) := by
    rw [Settles, evalExpr_operator (by simp) receiving.settles_count
      (evalExpr_countLiteral _ _ position)]
    change EStateM.Result.ok (Value.bool (decide
      (Float.ofNat position < Float.ofNat (args.length - 1)))) i = _
    rw [decide_eq_decide.mpr (Number.lt_ofNat_iff small)]
  refine receiving.exec_define ?_
  rw [Settles, evalExpr, bind_of_ok given]
  cases decide (position < args.length - 1) with
  | true => rfl
  | false => rfl

theorem add_add (prologue : Prologue) (code more : List Stmt) :
    (prologue.add code).add more = prologue.add (code ++ more) := by
  simp [Prologue.add]

theorem add_nil (prologue : Prologue) : prologue.add [] = prologue := by simp [Prologue.add]

/-- What the binding of optional parameters comes to before their defaults are computed: there are
script parameters for them, and their flags have been set. -/
structure FlagsBound (s t : CompileState) (head head' : Head) (params : List OptionalParam)
    (hosts : List String) (position : Nat) : Prop where
  binds : Binds (flagsOf params) s t head.env head'.env
  newHosts : Discipline.NewHosts s.counters t.counters params.length hosts
  flags : ∀ flag ∈ flagsOf params, ∃ host, IsHost t head'.env flag host ∧
    Made s.counters t.counters host ∧ host ∉ hosts
  code : ∃ code, head'.prologue = head.prologue.add code ∧
    ∀ call turns c args i, Receiving c args i → ∃ j,
      Touches c (fun name => Made s.counters t.counters name ∧ name ∉ hosts) i j ∧
      execBlock call turns c code i = .ok .normal j ∧
      ∀ (k : Nat) param flag host, params[k]? = some param → param.supplied = some flag →
        IsHost t head'.env flag host →
        j.own? c host = some (.ofBool (decide (position + k < args.length - 1)))

/-- The part of `bindSupplied` that is about the flag of a parameter. -/
def bindFlag (specials : List SymbolId) (head : Head) (position : Nat) :
    Option SymbolId → Compile Head
  | none => return head
  | some supplied => do
      let flag ← freshVariableFor supplied
      bindParameter specials (head.add [flagStmt flag position]) supplied flag

theorem bindSupplied_cons (specials : List SymbolId) (head : Head) (position : Nat)
    (param : OptionalParam) (params : List OptionalParam) :
    bindSupplied specials head position (param :: params) = (do
      let host ← freshVariableFor param.var
      let head ← bindFlag specials head position param.supplied
      let (head, hosts) ← bindSupplied specials head (position + 1) params
      return (head, host :: hosts)) := by
  rw [bindSupplied]
  cases param.supplied with
  | none => rfl
  | some supplied => simp only [bindFlag, bind_assoc, flagStmt]

/-- The flag of one optional parameter is bound. -/
theorem bindFlag_ok {supplied : Option SymbolId} (ready : Ready s head.env)
    (ok : bindFlag specials head position supplied s = .ok head' t)
    (lexical : ∀ flag ∈ supplied, IsLexical specials s flag) :
    Binds supplied.toList s t head.env head'.env ∧
      (∀ flag ∈ supplied, ∃ host, IsHost t head'.env flag host ∧
        Made s.counters t.counters host) ∧
      ∃ code, head'.prologue = head.prologue.add code ∧
        ∀ call turns c args i, Receiving c args i → ∃ j,
          Touches c (Made s.counters t.counters) i j ∧
          execBlock call turns c code i = .ok .normal j ∧
          ∀ flag ∈ supplied, ∀ host, IsHost t head'.env flag host →
            j.own? c host = some (.ofBool (decide (position < args.length - 1))) := by
  cases supplied with
  | none =>
      cases ok
      exact ⟨ready.stays.binds ready, nofun, [], (add_nil _).symm,
        fun call turns c args i _ => ⟨i, .refl .., rfl, nofun⟩⟩
  | some flag =>
      obtain ⟨host, s₁, fresh, bound⟩ := ok_of_bind ok
      obtain ⟨goes, made⟩ := freshVariableFor_ok ready fresh
      have ready₁ : Ready s₁ (head.add [flagStmt host position]).env := goes.ready
      obtain ⟨same, binds, isHost⟩ :=
        bindParameter_ok ready₁ ((lexical flag rfl).later ready goes.onward) made.ever bound
      have made := made.left binds.onward.counters
      refine ⟨(goes.binds ready).trans binds, ?_, _, same, fun call turns c args i receiving => ?_⟩
      · rintro _ ⟨⟩
        exact ⟨host, isHost, made⟩
      · refine ⟨i.setOwn c host (.ofBool (decide (position < args.length - 1))),
          (Touches.one receiving.bound ..).mono ?_, ?_, ?_⟩
        · rintro _ rfl
          exact made
        · rw [execBlock_singleton]
          exact exec_flagStmt receiving host position
        · rintro _ ⟨⟩ other is
          rw [is.unique isHost]
          exact own?_setOwn receiving.bound

theorem bindSupplied_ok {params : List OptionalParam} {hosts : List String}
    (ready : Ready s head.env) (lexical : ∀ flag ∈ flagsOf params, IsLexical specials s flag)
    (distinct : (flagsOf params).Nodup)
    (ok : bindSupplied specials head position params s = .ok (head', hosts) t) :
    FlagsBound s t head head' params hosts position := by
  induction params generalizing s head hosts position with
  | nil =>
      cases ok
      exact ⟨ready.stays.binds ready, .nil _ _, nofun, [], (add_nil _).symm,
        fun call turns c args i receiving => ⟨i, .refl .., rfl, nofun⟩⟩
  | cons param params ih =>
      have flags_eq : flagsOf (param :: params) = param.supplied.toList ++ flagsOf params :=
        List.flatMap_cons
      rw [flags_eq] at lexical distinct
      obtain ⟨-, others, apart⟩ := List.nodup_append.mp distinct
      rw [bindSupplied_cons] at ok
      obtain ⟨host, s₁, fresh, ok⟩ := ok_of_bind ok
      obtain ⟨head₂, s₂, flagged, ok⟩ := ok_of_bind ok
      obtain ⟨⟨head₃, rest⟩, s₃, more, ended⟩ := ok_of_bind ok
      cases ended
      obtain ⟨goes, made⟩ := freshVariableFor_ok ready fresh
      obtain ⟨binds, hasFlag, code, prologue, runs⟩ := bindFlag_ok goes.ready flagged
        fun flag member =>
          (lexical flag (List.mem_append_left _ (by simpa using member))).later ready goes.onward
      have before : Binds param.supplied.toList s s₂ head.env head₂.env :=
        (goes.binds ready).trans binds
      obtain ⟨binds', newHosts, hasFlags, code', prologue', runs'⟩ := ih binds.ready
        (fun other member => (lexical other (List.mem_append_right _ member)).later ready
          before.onward) others more
      have leads₁ := goes.onward.counters
      have leads₂ := binds.onward.counters
      have leads₃ := binds'.onward.counters
      -- A flag is none of the script parameters.
      have free : ∀ name, Made s₁.counters s₂.counters name → name ∉ host :: rest := by
        intro name again member
        rcases List.mem_cons.mp member with rfl | member
        · exact made.disjoint again
        · exact again.disjoint (newHosts.made name member)
      have freeRest : ∀ name, Made s₂.counters t.counters name → name ∉ rest →
          name ∉ host :: rest := by
        intro name again outside member
        rcases List.mem_cons.mp member with rfl | member
        · exact (made.left leads₂).disjoint again
        · exact outside member
      have stillHost : ∀ flag ∈ param.supplied, ∀ host, IsHost t head'.env flag host ↔
          IsHost s₂ head₂.env flag host := fun flag member host =>
        binds'.isHost fun again => apart flag (by simpa using member) flag again rfl
      refine ⟨flags_eq ▸ before.trans binds', newHosts_cons (made.left leads₂) newHosts
        before.onward.counters leads₃, ?_, code ++ code', ?_, fun call turns c args i receiving => ?_⟩
      · intro flag member
        rw [flags_eq] at member
        rcases List.mem_append.mp member with here | there
        · have here : flag ∈ param.supplied := by simpa using here
          obtain ⟨h, isHost, madeFlag⟩ := hasFlag flag here
          exact ⟨h, (stillHost flag here h).mpr isHost,
            (madeFlag.right leads₁).left leads₃, free h madeFlag⟩
        · obtain ⟨h, isHost, madeFlag, outside⟩ := hasFlags flag there
          exact ⟨h, isHost, madeFlag.right before.onward.counters, freeRest h madeFlag outside⟩
      · rw [prologue', prologue, add_add]
      · obtain ⟨j, touches, ran, set⟩ := runs call turns c args i receiving
        have receiving' := receiving.touches touches fun made => made.ne_arguments rfl
        obtain ⟨j', touches', ran', set'⟩ := runs' call turns c args j receiving'
        refine ⟨j', (touches.mono fun name again =>
            ⟨(again.right leads₁).left leads₃, free name again⟩).trans
          (touches'.mono fun name again => ⟨again.1.right before.onward.counters,
            freeRest name again.1 again.2⟩), ?_, ?_⟩
        · rw [execBlock_append_continues ran, ran']
        · intro k other flag h found supplied isHost
          cases k with
          | zero =>
              obtain rfl : param = other := by simpa using found
              have isHost₂ := (stillHost flag supplied h).mp isHost
              obtain ⟨h', isHost', madeFlag⟩ := hasFlag flag supplied
              obtain rfl := isHost₂.unique isHost'
              rw [touches'.kept h fun again => madeFlag.disjoint again.1]
              exact set flag supplied h isHost₂
          | succ k =>
              have found : params[k]? = some other := by simpa using found
              have position_eq : position + (k + 1) = position + 1 + k := by omega
              rw [position_eq]
              exact set' k other flag h found supplied isHost

end Positional

section Defaults

variable {depth : Nat} {context : Context} {left : List SymbolId} {host : SymbolId → String}
  {made : LiteralKey → Value}

/-- An activation in which the variables to the left have values, and others are there that may be
going to get defaults. -/
structure Awaiting (host : SymbolId → String) (left : List SymbolId) (hosts : List String)
    (c : Nat) (i : Image) : Prop where
  values : ∀ id ∈ left, ∃ value, i.own? c (host id) = some value
  there : ∀ name ∈ hosts, ∃ value, i.own? c name = some value
  apart : ∀ id ∈ left, host id ∉ hosts

/-- The parameters for which there was no argument have got their defaults. -/
structure Supplied (image : Image) (made : LiteralKey → Value) (host : SymbolId → String)
    (params : List (OptionalParam × String)) (c position count : Nat) (i j : Image) : Prop where
  touches : Touches c (· ∈ params.map Prod.snd) i j
  given : ∀ (k : Nat) param, params[k]? = some param → position + k < count →
    j.own? c param.2 = i.own? c param.2
  missing : ∀ (k : Nat) param, params[k]? = some param → count ≤ position + k →
    ∃ value, DefaultHas image made (fun id value => j.own? c (host id) = some value)
      param.1.default value ∧ j.own? c param.2 = some value

/-- The next variable has a value, which may be new. -/
theorem Awaiting.next {name : String} {hosts : List String} {var : SymbolId}
    (awaiting : Awaiting host left (name :: hosts) c i) (touches : Touches c (· = name) i j)
    (fresh : name ∉ hosts) (here : host var = name) :
    Awaiting host (left ++ [var]) hosts c j where
  values id member := by
    rcases List.mem_append.mp member with old | new
    · obtain ⟨value, held⟩ := awaiting.values id old
      exact touches.there _ value held
    · obtain ⟨value, held⟩ := awaiting.there name List.mem_cons_self
      rw [List.mem_singleton.mp new, here]
      exact touches.there name value held
  there other member := by
    obtain ⟨value, held⟩ := awaiting.there other (List.mem_cons_of_mem _ member)
    exact touches.there other value held
  apart id member := by
    rcases List.mem_append.mp member with old | new
    · exact fun again => awaiting.apart id old (List.mem_cons_of_mem _ again)
    · rwa [List.mem_singleton.mp new, here]

/-- The first parameter has an argument. -/
theorem Supplied.cons_given {image : Image} {param : OptionalParam × String}
    {params : List (OptionalParam × String)} {count : Nat}
    (rest : Supplied image made host params c (position + 1) count i j)
    (fresh : param.2 ∉ params.map Prod.snd) (here : position < count) :
    Supplied image made host (param :: params) c position count i j where
  touches := rest.touches.mono fun _ => List.mem_cons_of_mem _
  given k other found given := by
    cases k with
    | zero =>
        obtain rfl : param = other := by simpa using found
        exact rest.touches.kept _ fresh
    | succ k => exact rest.given k other (by simpa using found) (by omega)
  missing k other found missing := by
    cases k with
    | zero => omega
    | succ k => exact rest.missing k other (by simpa using found) (by omega)

/-- The first parameter has got its default. -/
theorem Supplied.cons_missing {image i₁ : Image} {param : OptionalParam × String}
    {params : List (OptionalParam × String)} {count : Nat} {value : Value}
    (rest : Supplied image made host params c (position + 1) count i₁ j)
    (touches : Touches c (· = param.2) i i₁) (fresh : param.2 ∉ params.map Prod.snd)
    (here : count ≤ position) (held : i₁.own? c param.2 = some value)
    (has : DefaultHas image made (fun id value => i.own? c (host id) = some value) param.1.default
      value)
    (simple : IsSimple image left param.1.default)
    (apart : ∀ id ∈ left, host id ∉ param.2 :: params.map Prod.snd) :
    Supplied image made host (param :: params) c position count i j where
  touches := (touches.mono fun _ same => same ▸ List.mem_cons_self).trans
    (rest.touches.mono fun _ => List.mem_cons_of_mem _)
  given k other found given := by omega
  missing k other found missing := by
    cases k with
    | zero =>
        obtain rfl : param = other := by simpa using found
        refine ⟨value, has.mono simple fun id member value held => ?_, ?_⟩
        · obtain ⟨ne, outside⟩ := not_or.mp (List.mem_cons.not.mp (apart id member))
          rw [rest.touches.kept _ outside, touches.kept _ ne, held]
        · rw [rest.touches.kept _ fresh, held]
    | succ k => exact rest.missing k other (by simpa using found) (by omega)

theorem defaultCases_ok {params : List (OptionalParam × String)} {cases_ : List Case}
    (ready : Ready s env)
    (simple : ∀ before param after, params = before ++ param :: after →
      IsSimple s.image (left ++ before.map (·.1.var)) param.1.default)
    (hosts : ∀ id ∈ left, id ≠ SymbolId.nil ∧ ∃ name, IsHost s env id name)
    (notNil : ∀ param ∈ params, param.1.var ≠ SymbolId.nil)
    (distinct : (left ++ params.map (·.1.var)).Nodup)
    (known : ∀ param ∈ params, Made {} s.counters param.2)
    (ok : defaultCases (compileWithin depth) context env position params s = .ok (env', cases_) t) :
    Binds (params.map (·.1.var)) s t env env' ∧
    (∀ param ∈ params, IsHost t env' param.1.var param.2) ∧
    ∃ codes, cases_ = defaultCode position ((params.map Prod.snd).zip codes) ∧
      ∀ host : SymbolId → String, (∀ id ∈ left, IsHost s env id (host id)) →
      (∀ param ∈ params, host param.1.var = param.2) →
      ∀ call turns c args made i, Entered made args c t i →
      Awaiting host left (params.map Prod.snd) c i → (params.map Prod.snd).Nodup →
      (∀ name ∈ params.map Prod.snd, ∃ d d', Made d d' name) →
      ∃ j, Supplied s.image made host params c position (args.length - 1) i j ∧
        execBlock call turns c ((((params.map Prod.snd).zip codes).drop
          (args.length - 1 - position)).map fun (host, e) => assignStmt host e) i =
            .ok .normal j := by
  induction params generalizing s env left position cases_ with
  | nil =>
      cases ok
      refine ⟨ready.stays.binds ready, nofun, [], rfl, ?_⟩
      intro host _ _ call turns c args made i _ _ _ _
      refine ⟨i, ⟨.refl .., nofun, nofun⟩, ?_⟩
      simp [execBlock]
      rfl
  | cons param params ih =>
      obtain ⟨param, name⟩ := param
      obtain ⟨distinctLeft, distinctVars, apart⟩ := List.nodup_append.mp distinct
      obtain ⟨newVar, distinctRest⟩ := List.nodup_cons.mp distinctVars
      have fresh : ∀ id ∈ left, id ∉ [param.var] := by
        intro id member again
        exact apart id member param.var List.mem_cons_self (List.mem_singleton.mp again)
      rw [defaultCases] at ok
      obtain ⟨code, s₁, compiled, ok⟩ := ok_of_bind ok
      obtain ⟨binding, s₂, bound, ok⟩ := ok_of_bind ok
      obtain ⟨⟨env₃, cases₃⟩, s₃, more, ended⟩ := ok_of_bind ok
      cases ended
      have ready₀ : Ready s ((context.withEnv env).single).env := ready
      have simple₀ : IsSimple s.image left param.default := by
        simpa using simple [] (param, name) params rfl
      obtain ⟨goes, gets⟩ := compileDefault_ok ready₀ simple₀ hosts compiled
      obtain ⟨knownHere, knownRest⟩ := List.forall_mem_cons.mp known
      obtain ⟨binds, isHost⟩ :=
        variableBinding_ok goes.ready (knownHere.left goes.onward.counters) bound
      have before : Binds [param.var] s s₂ env (binding :: env) := (goes.binds ready).trans binds
      have hosts₂ : ∀ id ∈ left ++ [param.var],
          id ≠ SymbolId.nil ∧ ∃ name, IsHost s₂ (binding :: env) id name := by
        intro id member
        rcases List.mem_append.mp member with old | new
        · obtain ⟨notNil, h, is⟩ := hosts id old
          exact ⟨notNil, h, (before.isHost (fresh id old)).mpr is⟩
        · obtain rfl := List.mem_singleton.mp new
          exact ⟨notNil _ List.mem_cons_self, name, isHost⟩
      have simple₂ : ∀ earlier other after, params = earlier ++ other :: after →
          IsSimple s₂.image (left ++ [param.var] ++ earlier.map (·.1.var)) other.1.default := by
        intro earlier other after same
        rw [before.onward.image, List.append_assoc]
        exact simple ((param, name) :: earlier) other after (congrArg _ same)
      obtain ⟨binds', areHosts, codes, rfl, runs⟩ := ih
        binds.ready simple₂ hosts₂ (fun other member => notNil other (List.mem_cons_of_mem _ member))
        (by simpa using distinct)
        (fun other member => (knownRest other member).left before.onward.counters) more
      refine ⟨before.trans binds', ?_, code :: codes, rfl, ?_⟩
      · intro other member
        rcases List.mem_cons.mp member with rfl | member
        · exact (binds'.isHost newVar).mpr isHost
        · exact areHosts other member
      intro host agrees named call turns c args made i entered awaiting distinctHosts generated
      obtain ⟨newHost, distinctHosts'⟩ := List.nodup_cons.mp distinctHosts
      have generated' : ∀ name ∈ params.map Prod.snd, ∃ d d', Made d d' name :=
        fun name member => generated name (List.mem_cons_of_mem _ member)
      have agrees' : ∀ id ∈ left ++ [param.var], IsHost s₂ (binding :: env) id (host id) := by
        intro id member
        rcases List.mem_append.mp member with old | new
        · exact (before.isHost (fresh id old)).mpr (agrees id old)
        · obtain rfl := List.mem_singleton.mp new
          exact (named _ List.mem_cons_self) ▸ isHost
      have named' : ∀ other ∈ params, host other.1.var = other.2 :=
        fun other member => named other (List.mem_cons_of_mem _ member)
      have here : host param.var = name := named _ List.mem_cons_self
      obtain ⟨old, held⟩ := awaiting.there name List.mem_cons_self
      by_cases given : position < args.length - 1
      · obtain ⟨j, supplied, ran⟩ := runs host agrees' named' call turns c args made i entered
          (awaiting.next (.refl ..) newHost here) distinctHosts' generated'
        refine ⟨j, (before.onward.image ▸ supplied).cons_given newHost given, ?_⟩
        have skip : args.length - 1 - position = args.length - 1 - (position + 1) + 1 := by omega
        rw [skip]
        exact ran
      · have entered₁ := entered.earlier (binds.onward.trans binds'.onward)
        obtain ⟨value, j₁, computed, untouched, has⟩ := gets host agrees call turns c i made
          entered₁.literals entered.receiving.bound awaiting.values
        have assigned := entered.receiving.exec_assignStmt computed untouched held
        have bound₁ : c < j₁.heap.scopes.size := untouched.size ▸ entered.receiving.bound
        have touches : Touches c (· = name) i (j₁.setOwn c name value) :=
          (untouched.mono fun _ => False.elim).trans (.one bound₁ name value)
        have enteredNext := entered.touches touches fun other same =>
          same ▸ generated name List.mem_cons_self
        obtain ⟨j, supplied, ran⟩ := runs host agrees' named' call turns c args made _ enteredNext
          (awaiting.next touches newHost here) distinctHosts' generated'
        refine ⟨j, (before.onward.image ▸ supplied).cons_missing touches newHost (Nat.le_of_not_lt given)
          (own?_setOwn bound₁) has simple₀ awaiting.apart, ?_⟩
        have all : args.length - 1 - position = 0 := by omega
        have none_left : args.length - 1 - (position + 1) = 0 := by omega
        rw [none_left] at ran
        rw [all]
        exact (execBlock_continues assigned).trans ran

theorem anyM_lexical {params : List (OptionalParam × String)}
    (lexical : ∀ param ∈ params, IsLexical specials s param.1.var) :
    (params.anyM (fun (param, _) => bindsSpecial param.var specials) : Compile Bool) s =
      .ok false s := by
  induction params with
  | nil => rfl
  | cons param params ih =>
      rw [List.anyM, bind_ended (bindsSpecial_lexical (lexical _ List.mem_cons_self))]
      exact ih fun other member => lexical other (List.mem_cons_of_mem _ member)

/-- Missing optional parameters get their defaults. -/
theorem bindDefaults_ok {params : List (OptionalParam × String)} (ready : Ready s head.env)
    (lexical : ∀ param ∈ params, IsLexical specials s param.1.var)
    (simple : ∀ before param after, params = before ++ param :: after →
      IsSimple s.image (left ++ before.map (·.1.var)) param.1.default)
    (hosts : ∀ id ∈ left, id ≠ SymbolId.nil ∧ ∃ name, IsHost s head.env id name)
    (notNil : ∀ param ∈ params, param.1.var ≠ SymbolId.nil)
    (distinct : (left ++ params.map (·.1.var)).Nodup)
    (known : ∀ param ∈ params, Made {} s.counters param.2)
    (ok : bindDefaults (compileWithin depth) context specials head position params s =
      .ok head' t) :
    Binds (params.map (·.1.var)) s t head.env head'.env ∧
    (∀ param ∈ params, IsHost t head'.env param.1.var param.2) ∧
    ∃ code, head'.prologue = head.prologue.add code ∧
      ∀ host : SymbolId → String, (∀ id ∈ left, IsHost s head.env id (host id)) →
      (∀ param ∈ params, host param.1.var = param.2) →
      ∀ call turns c args made i, Entered made args c t i →
      Awaiting host left (params.map Prod.snd) c i → (params.map Prod.snd).Nodup →
      (∀ name ∈ params.map Prod.snd, ∃ d d', Made d d' name) → position ≤ args.length - 1 →
      ∃ j, Supplied s.image made host params c position (args.length - 1) i j ∧
        execBlock call turns c code i = .ok .normal j := by
  unfold bindDefaults at ok
  rw [bind_ended (anyM_lexical lexical), if_neg (by simp)] at ok
  by_cases empty : params.isEmpty = true
  · rw [if_pos empty] at ok
    cases ok
    obtain rfl := List.isEmpty_iff.mp empty
    refine ⟨ready.stays.binds ready, nofun, [], (add_nil _).symm, ?_⟩
    intro host _ _ call turns c args made i _ _ _ _ _
    exact ⟨i, ⟨.refl .., nofun, nofun⟩, rfl⟩
  · rw [if_neg empty] at ok
    obtain ⟨⟨env₁, cases₁⟩, s₁, done, ended⟩ := ok_of_bind ok
    cases ended
    obtain ⟨binds, areHosts, codes, rfl, runs⟩ :=
      defaultCases_ok ready simple hosts notNil distinct known done
    refine ⟨binds, areHosts, _, rfl, ?_⟩
    intro host agrees named call turns c args made i entered awaiting distinctHosts generated enough
    obtain ⟨j, supplied, ran⟩ := runs host agrees named call turns c args made i entered awaiting
      distinctHosts generated
    have small : args.length - 1 < Number.exactLimit :=
      Nat.lt_of_le_of_lt (Nat.sub_le ..) entered.receiving.short
    refine ⟨j, supplied, ?_⟩
    rw [execBlock_singleton, exec_selectDefaults entered.receiving.settles_count small enough, ran]

end Defaults

section Rest

variable {first : Nat} {rest : SymbolId}

/-- The rest parameter gets a new list of the arguments from its place on. -/
theorem bindRest_ok (ready : Ready s head.env) (lexical : IsLexical specials s rest)
    (positive : 1 ≤ first) (ok : bindRest specials head first rest s = .ok head' t) :
    Binds [rest] s t head.env head'.env ∧
    ∃ host, IsHost t head'.env rest host ∧ Made s.counters t.counters host ∧
    ∃ code, head'.prologue = head.prologue.add code ∧
      ∀ steps turns c args i, Receiving c args i → args.length ≤ turns →
      ∃ j value, Touches c (Made s.counters t.counters) i j ∧
        execBlock (callWithin (steps + 1)) turns c code i = .ok .normal j ∧
        j.own? c host = some value ∧ IsFreshList i.heap j.heap value (args.drop first) := by
  obtain ⟨host, s₁, fresh, ok⟩ := ok_of_bind ok
  obtain ⟨index, s₂, freshIndex, ok⟩ := ok_of_bind ok
  obtain ⟨goes, made⟩ := freshVariableFor_ok ready fresh
  obtain ⟨goes', madeIndex⟩ := freshVariable_ok goes.ready freshIndex
  have before := goes.trans goes'
  have ready₂ : Ready s₂ (head.add (collectRest host index first)).env := before.ready
  obtain ⟨same, binds, isHost⟩ :=
    bindParameter_ok ready₂ (lexical.later ready before.onward)
      (made.left goes'.onward.counters).ever ok
  have leads := binds.onward.counters
  have madeHost : Made s.counters t.counters host :=
    made.left (goes'.onward.counters.trans leads)
  have madeIndex' : Made s.counters t.counters index :=
    (madeIndex.right goes.onward.counters).left leads
  refine ⟨(before.binds ready).trans binds, host, isHost, madeHost, _, same, ?_⟩
  intro steps turns c args i receiving enough
  have ne : host ≠ index := fun same => made.disjoint (same ▸ madeIndex)
  obtain ⟨j, value, touches, ran, held, list⟩ := collectRest_run receiving
    madeIndex.ne_arguments made.ne_arguments ne enough positive
  refine ⟨j, value, touches.mono ?_, ran, held, list⟩
  rintro name (rfl | rfl)
  · exact madeIndex'
  · exact madeHost

end Rest

section Keys

variable {depth first : Nat} {context : Context} {left : List SymbolId} {index : String}
  {made : LiteralKey → Value} {rest : List Value} {ps : List (Value × Value)}

theorem execBlock_flags (receiving : Receiving c args i) (flag? : Option String) :
    ∃ j, Touches c (· ∈ flag?) i j ∧ (∀ flag ∈ flag?, j.own? c flag = some .nil) ∧
      execBlock call turns c (flag?.toList.map fun flag => Stmt.define flag .nil) i =
        .ok .normal j := by
  cases flag? with
  | none => exact ⟨i, .refl .., nofun, rfl⟩
  | some flag =>
      refine ⟨i.setOwn c flag .nil, (Touches.one receiving.bound ..).mono ?_, ?_, ?_⟩
      · rintro _ rfl
        rfl
      · rintro _ ⟨⟩
        exact own?_setOwn receiving.bound
      · rw [Option.toList_some, List.map_singleton, execBlock_singleton]
        exact receiving.exec_define settles_nil

/-- A keyword parameter gets the leftmost argument for its keyword, or its default, and its flag tells
which. -/
theorem keyStmts_run {name : String} {flag? : Option String} {keyword default : Expr} {kw old : Value}
    {is : Value → Prop} (receiving : Receiving c args i) (paired : Paired args first ps)
    (enough : ps.length < turns) (there : i.own? c index = some old)
    (absent : i.own? c name = none) (apart : index ≠ "arguments") (name_ne : name ≠ index)
    (name_apart : name ≠ "arguments")
    (flags_ne : ∀ flag ∈ flag?, flag ≠ index ∧ flag ≠ name ∧ flag ≠ "arguments")
    (keyword_ok : ∀ j, Touches c (fun other => other = index ∨ other = name ∨ other ∈ flag?) i j →
      Settles call turns c j keyword kw)
    (default_ok : ∀ j, Touches c (fun other => other = index ∨ other = name ∨ other ∈ flag?) i j →
      GetsOf call turns c j default is)
    (defined : ∀ pair ∈ ps, pair.2 ≠ .undefined) :
    ∃ j, Touches c (fun other => other = index ∨ other = name ∨ other ∈ flag?) i j ∧
      execBlock call turns c (keyStmts index first name flag? keyword default) i = .ok .normal j ∧
      (∀ flag ∈ flag?, j.own? c flag =
        some (.ofBool (ps.find? (·.1.strictEq kw)).isSome)) ∧
      match ps.find? (·.1.strictEq kw) with
      | some pair => j.own? c name = some pair.2
      | none => ∃ value, is value ∧ j.own? c name = some value := by
  obtain ⟨i₁, declared, touches₁, -, unset⟩ := receiving.exec_declare name
  have receiving₁ := receiving.touches touches₁ name_apart.symm
  obtain ⟨i₂, touches₂, unflagged, flagged⟩ := execBlock_flags receiving₁ flag?
  have receiving₂ := receiving₁.touches touches₂ fun member => (flags_ne _ member).2.2 rfl
  have before : Touches c (fun other => other = index ∨ other = name ∨ other ∈ flag?) i i₂ :=
    (touches₁.mono fun _ same => .inr (.inl same)).trans
      (touches₂.mono fun _ member => .inr (.inr member))
  have there₂ : i₂.own? c index = some old := by
    rw [touches₂.kept index fun member => (flags_ne _ member).1 rfl,
      touches₁.kept index name_ne.symm, there]
  have unset₂ : i₂.own? c name = some .undefined := by
    rw [touches₂.kept name fun member => (flags_ne _ member).2.1 rfl, unset absent]
  have searched := keyCode_run default receiving₂ paired apart enough there₂ unset₂ name_ne
    name_apart (fun flag member => ⟨_, unflagged flag member⟩) flags_ne
    (fun j touches => keyword_ok j (before.trans (touches.mono fun _ => .inl))) defined
  have whole : execBlock call turns c (keyStmts index first name flag? keyword default) i =
      execBlock call turns c (keyCode index first name flag? keyword default) i₂ := by
    rw [keyStmts, List.cons_append, execBlock_continues declared, execBlock_append_continues flagged]
  cases found : ps.find? (·.1.strictEq kw) with
  | some pair =>
      rw [found] at searched
      obtain ⟨j, touches, held, set, ran⟩ := searched
      exact ⟨j, before.trans touches, whole.trans ran, set, held⟩
  | none =>
      rw [found] at searched
      obtain ⟨j, touches, ran⟩ := searched
      have receiving₃ := receiving₂.touches touches apart.symm
      obtain ⟨value, j₁, computed, untouched, has⟩ :=
        default_ok j (before.trans (touches.mono fun _ => .inl))
      have unset₃ : j.own? c name = some .undefined := (touches.kept name name_ne).trans unset₂
      have assigned := receiving₃.exec_assignStmt computed untouched unset₃
      have bound₁ : c < j₁.heap.scopes.size := untouched.size ▸ receiving₃.bound
      have touches₃ : Touches c (· = name) j (j₁.setOwn c name value) :=
        (untouched.mono fun _ => False.elim).trans (.one bound₁ name value)
      refine ⟨_, (before.trans (touches.mono fun _ => .inl)).trans
        (touches₃.mono fun _ same => .inr (.inl same)), whole.trans (ran.trans assigned), ?_,
        value, has, own?_setOwn bound₁⟩
      intro flag member
      rw [touches₃.kept flag (flags_ne flag member).2.1, touches.kept flag (flags_ne flag member).1]
      exact unflagged flag member

/-- The part of `bindKeys` that makes a variable for the flag of a parameter. -/
def keyFlag? (supplied : Option SymbolId) : Compile (Option (SymbolId × String)) :=
  supplied.mapM fun supplied => do return (supplied, ← freshVariableFor supplied)

/-- The part of `bindKeys` that binds the flag of a parameter. -/
def bindKeyFlag (specials : List SymbolId) (head : Head) :
    Option (SymbolId × String) → Compile Head
  | some (supplied, flag) => bindParameter specials head supplied flag
  | none => return head

/-- The part of `bindKeys` that is about one parameter. -/
def bindKey (compile : FormCompiler) (context : Context) (specials : List SymbolId)
    (index : String) (first : Nat) (head : Head) (param : KeyParam) : Compile (Head × Expr) := do
  let host ← freshVariableFor param.var
  let keyword ← symbolLiteral param.keyword
  let flag? ← keyFlag? param.supplied
  let default ← compileSingle compile (context.withEnv head.env) param.default
  let head ← bindKeyFlag specials
    (head.add (keyStmts index first host (flag?.map Prod.snd) keyword default)) flag?
  let head ← bindParameter specials head param.var host
  return (head, keyword)

theorem bindKeys_cons (compile : FormCompiler) (context : Context) (specials : List SymbolId)
    (index : String) (first : Nat) (head : Head) (param : KeyParam) (params : List KeyParam) :
    bindKeys compile context specials index first head (param :: params) = (do
      let (head, keyword) ← bindKey compile context specials index first head param
      let (head, keywords) ← bindKeys compile context specials index first head params
      return (head, keyword :: keywords)) := by
  rw [bindKeys, bindKey]
  simp only [bind_assoc, pure_bind]
  refine congrArg (freshVariableFor param.var >>= ·) (funext fun host => ?_)
  refine congrArg (symbolLiteral param.keyword >>= ·) (funext fun keyword => ?_)
  refine congrArg (keyFlag? param.supplied >>= ·) (funext fun flag? => ?_)
  cases flag? <;> rfl

theorem keyFlag?_ok {supplied : Option SymbolId} {flag? : Option (SymbolId × String)}
    (ready : Ready s env) (ok : keyFlag? supplied s = .ok flag? t) :
    GoesOn env s t ∧ flag?.map Prod.fst = supplied ∧
      ∀ flag ∈ flag?.map Prod.snd, Made s.counters t.counters flag := by
  cases supplied with
  | none =>
      cases ok
      exact ⟨ready.stays, rfl, nofun⟩
  | some supplied =>
      obtain ⟨pair, s₁, paired, ended⟩ := ok_of_bind ok
      obtain ⟨flag, s₂, fresh, ended'⟩ := ok_of_bind paired
      cases ended'
      cases ended
      obtain ⟨goes, made⟩ := freshVariableFor_ok ready fresh
      refine ⟨goes, rfl, ?_⟩
      rintro _ ⟨⟩
      exact made

theorem bindKeyFlag_ok {flag? : Option (SymbolId × String)} (ready : Ready s head.env)
    (lexical : ∀ pair ∈ flag?, IsLexical specials s pair.1)
    (made : ∀ pair ∈ flag?, Made {} s.counters pair.2) (ok : bindKeyFlag specials head flag? s = .ok head' t) :
    head'.prologue = head.prologue ∧ Binds (flag?.map Prod.fst).toList s t head.env head'.env ∧
      ∀ pair ∈ flag?, IsHost t head'.env pair.1 pair.2 := by
  cases flag? with
  | none =>
      cases ok
      exact ⟨rfl, ready.stays.binds ready, nofun⟩
  | some pair =>
      obtain ⟨same, binds, isHost⟩ := bindParameter_ok ready (lexical pair rfl) (made pair rfl) ok
      refine ⟨same, binds, ?_⟩
      rintro _ ⟨⟩
      exact isHost

/-- A keyword parameter has got its value, and its flag tells whether that is an argument. -/
structure KeyReceives (image : Image) (made : LiteralKey → Value) (host : SymbolId → String)
    (rest : List Value) (param : KeyParam) (c : Nat) (j : Image) : Prop where
  key : ∀ arg, argumentFor? param.keyword rest = some arg →
    j.own? c (host param.var) = some arg
  default : argumentFor? param.keyword rest = none → ∃ value,
    DefaultHas image made (fun id value => j.own? c (host id) = some value) param.default value ∧
      j.own? c (host param.var) = some value
  flag : ∀ flag, param.supplied = some flag →
    j.own? c (host flag) = some (.ofBool (argumentFor? param.keyword rest).isSome)

/-- What was received stays while variables change that have to do with neither the parameter nor its
default. -/
theorem KeyReceives.kept {image : Image} {host : SymbolId → String} {param : KeyParam}
    {names : String → Prop} (receives : KeyReceives image made host rest param c i)
    (touches : Touches c names i j) (simple : IsSimple image left param.default)
    (free : ∀ id ∈ left ++ param.vars, ¬ names (host id)) :
    KeyReceives image made host rest param c j := by
  have still : ∀ id ∈ left ++ param.vars, j.own? c (host id) = i.own? c (host id) :=
    fun id member => touches.kept _ (free id member)
  have var := still param.var (List.mem_append_right _ List.mem_cons_self)
  refine ⟨fun arg found => var.trans (receives.key arg found), fun none_ => ?_,
    fun flag supplied => ?_⟩
  · obtain ⟨value, has, held⟩ := receives.default none_
    refine ⟨value, has.mono simple fun id member value held => ?_, var.trans held⟩
    rw [still id (List.mem_append_left _ member), held]
  · refine (still flag (List.mem_append_right _ ?_)).trans (receives.flag flag supplied)
    simp [KeyParam.vars, supplied]

/-- What the binding of keyword parameters comes to. -/
structure KeysBound (c₀ : Counters) (index : String) (first : Nat) (left : List SymbolId)
    (s t : CompileState) (head head' : Head) (params : List KeyParam) (keywords : List Expr) :
    Prop where
  binds : Binds (params.flatMap KeyParam.vars) s t head.env head'.env
  hosts : ∀ id ∈ params.flatMap KeyParam.vars, ∃ host, IsHost t head'.env id host ∧
    Made s.counters t.counters host
  keywords : ∀ call turns c i made, HoldsLiterals t made i c →
    List.Forall₂ (Settles call turns c i) keywords (params.map fun p => .ofSymbol p.keyword)
  code : ∃ code, head'.prologue = head.prologue.add code ∧
    ∀ host : SymbolId → String, (∀ id ∈ left, IsHost s head.env id (host id)) →
    (∀ id ∈ params.flatMap KeyParam.vars, IsHost t head'.env id (host id)) →
    (∀ id ∈ left, Made c₀ s.counters (host id) ∧ host id ≠ index) →
    ∀ call turns c args made i rest, Entered made args c t i → Paired args first (pairs rest) →
    (pairs rest).length < turns → (∀ pair ∈ pairs rest, pair.2 ≠ .undefined) →
    (∃ old, i.own? c index = some old) →
    (∀ d name, Made s.counters d name → i.own? c name = none) →
    (∀ id ∈ left, ∃ value, i.own? c (host id) = some value) →
    ∃ j, Touches c (fun name => name = index ∨ Made s.counters t.counters name) i j ∧
      execBlock call turns c code i = .ok .normal j ∧
      ∀ param ∈ params, KeyReceives s.image made host rest param c j

theorem KeyReceives.there {image : Image} {host : SymbolId → String} {param : KeyParam}
    (receives : KeyReceives image made host rest param c i) :
    ∀ id ∈ param.vars, ∃ value, i.own? c (host id) = some value := by
  intro id member
  rcases List.mem_cons.mp member with rfl | member
  · cases found : argumentFor? param.keyword rest with
    | some arg => exact ⟨arg, receives.key arg found⟩
    | none =>
        obtain ⟨value, -, held⟩ := receives.default found
        exact ⟨value, held⟩
  · exact ⟨_, receives.flag id (by simpa using member)⟩

/-- Parameters are bound one after the other. -/
theorem KeysBound.append {c₀ : Counters} {head'' : Head} {params more : List KeyParam}
    {keywords others : List Expr}
    (first_ : KeysBound c₀ index first left s t head head' params keywords)
    (second : KeysBound c₀ index first (left ++ params.flatMap KeyParam.vars) t u head' head'' more
      others)
    (simple : ∀ param ∈ params, IsSimple s.image (left ++ params.flatMap KeyParam.vars) param.default)
    (distinct : (left ++ (params ++ more).flatMap KeyParam.vars).Nodup)
    (madeIndex : Made c₀ s.counters index) (leads : c₀.Leads s.counters) :
    KeysBound c₀ index first left s u head head'' (params ++ more) (keywords ++ others) := by
  rw [List.flatMap_append] at distinct
  obtain ⟨-, distinctVars, apart⟩ := List.nodup_append.mp distinct
  obtain ⟨-, -, apartVars⟩ := List.nodup_append.mp distinctVars
  have leads₁ := first_.binds.onward.counters
  have leads₂ := second.binds.onward.counters
  have vars_eq : (params ++ more).flatMap KeyParam.vars =
      params.flatMap KeyParam.vars ++ more.flatMap KeyParam.vars := List.flatMap_append
  have later : ∀ id ∈ params.flatMap KeyParam.vars, ∀ h,
      IsHost u head''.env id h ↔ IsHost t head'.env id h := fun id member h =>
    second.binds.isHost fun again => apartVars id member id again rfl
  have same := first_.binds.onward.image
  obtain ⟨code₁, prologue₁, runs₁⟩ := first_.code
  obtain ⟨code₂, prologue₂, runs₂⟩ := second.code
  refine ⟨vars_eq ▸ first_.binds.trans second.binds, ?_, ?_, code₁ ++ code₂, ?_, ?_⟩
  · intro id member
    rw [vars_eq] at member
    rcases List.mem_append.mp member with here | there
    · obtain ⟨h, isHost, made⟩ := first_.hosts id here
      exact ⟨h, (later id here h).mpr isHost, made.left leads₂⟩
    · obtain ⟨h, isHost, made⟩ := second.hosts id there
      exact ⟨h, isHost, made.right leads₁⟩
  · intro call turns c i made holds
    rw [List.map_append]
    exact List.rel_append (first_.keywords call turns c i made (holds.earlier second.binds.onward))
      (second.keywords call turns c i made holds)
  · rw [prologue₂, prologue₁, add_add]
  · intro host agrees named generated call turns c args made i rest entered paired enough defined
      there absent values
    have named₁ : ∀ id ∈ params.flatMap KeyParam.vars, IsHost t head'.env id (host id) :=
      fun id member => (later id member _).mp (named id (vars_eq ▸ List.mem_append_left _ member))
    obtain ⟨j, touches, ran, receives⟩ := runs₁ host agrees named₁ generated call turns c args made i
      rest (entered.earlier second.binds.onward) paired enough defined there absent values
    have enteredNext := entered.touches touches fun name changed => by
      rcases changed with rfl | again
      · exact ⟨_, _, madeIndex⟩
      · exact ⟨_, _, again⟩
    have agrees₂ : ∀ id ∈ left ++ params.flatMap KeyParam.vars, IsHost t head'.env id (host id) := by
      intro id member
      rcases List.mem_append.mp member with old | new
      · refine (first_.binds.isHost fun again => ?_).mpr (agrees id old)
        exact apart id old id (List.mem_append_left _ again) rfl
      · exact named₁ id new
    have generated₂ : ∀ id ∈ left ++ params.flatMap KeyParam.vars,
        Made c₀ t.counters (host id) ∧ host id ≠ index := by
      intro id member
      rcases List.mem_append.mp member with old | new
      · obtain ⟨made, ne⟩ := generated id old
        exact ⟨made.left leads₁, ne⟩
      · obtain ⟨h, isHost, made⟩ := first_.hosts id new
        rw [(named₁ id new).unique isHost]
        exact ⟨made.right leads, fun again => madeIndex.disjoint (again ▸ made)⟩
    have absent₂ : ∀ d name, Made t.counters d name → j.own? c name = none := by
      intro d name again
      rw [touches.kept name, absent d name (again.right leads₁)]
      rintro (rfl | made)
      · exact (madeIndex.left leads₁).disjoint again
      · exact made.disjoint again
    have values₂ : ∀ id ∈ left ++ params.flatMap KeyParam.vars,
        ∃ value, j.own? c (host id) = some value := by
      intro id member
      rcases List.mem_append.mp member with old | new
      · obtain ⟨value, held⟩ := values id old
        exact touches.there _ value held
      · obtain ⟨param, inside, here⟩ := List.mem_flatMap.mp new
        exact (receives param inside).there id here
    obtain ⟨old, held⟩ := there
    obtain ⟨j', touches', ran', receives'⟩ := runs₂ host agrees₂
      (fun id member => named id (vars_eq ▸ List.mem_append_right _ member)) generated₂ call turns c
      args made j rest enteredNext paired enough defined (touches.there _ old held) absent₂ values₂
    refine ⟨j', (touches.mono fun name => Or.imp_right fun again => again.left leads₂).trans
      (touches'.mono fun name => Or.imp_right fun again => again.right leads₁), ?_, ?_⟩
    · rw [execBlock_append_continues ran, ran']
    · intro param member
      rcases List.mem_append.mp member with here | there
      · refine (receives param here).kept touches' (simple param here) fun id inside => ?_
        have known : id ∈ left ++ params.flatMap KeyParam.vars := by
          rcases List.mem_append.mp inside with old | new
          · exact old
          · exact List.mem_append_right _ (List.mem_flatMap.mpr ⟨param, here, new⟩)
        obtain ⟨made, ne⟩ := generated₂ id known
        rintro (again | again)
        · exact ne again
        · exact made.disjoint again
      · exact same ▸ receives' param there

/-- What a keyword parameter is compiled to. -/
structure KeyParts (index : String) (first : Nat) (left : List SymbolId) (s t : CompileState)
    (head head' : Head) (param : KeyParam) (name : String) (flag? : Option (SymbolId × String))
    (keyword default : Expr) : Prop where
  binds : Binds param.vars s t head.env head'.env
  isVar : IsHost t head'.env param.var name
  isFlag : ∀ pair ∈ flag?, IsHost t head'.env pair.1 pair.2
  supplied : flag?.map Prod.fst = param.supplied
  madeName : Made s.counters t.counters name
  madeFlag : ∀ flag ∈ flag?.map Prod.snd, Made s.counters t.counters flag ∧ flag ≠ name
  isKeyword : IsMade t keyword fun _ => .ofSymbol param.keyword
  prologue : head'.prologue = head.prologue.add
    (keyStmts index first name (flag?.map Prod.snd) keyword default)
  gets : ∀ host : SymbolId → String, (∀ id ∈ left, IsHost s head.env id (host id)) →
    ∀ call turns c i made, HoldsLiterals t made i c → c < i.heap.scopes.size →
    (∀ id ∈ left, ∃ value, i.own? c (host id) = some value) →
    GetsOf call turns c i default
      (DefaultHas s.image made (fun id value => i.own? c (host id) = some value) param.default)

theorem bindKey_parts {param : KeyParam} {keyword : Expr}
    (ready : Ready s head.env) (lexical : ∀ id ∈ param.vars, IsLexical specials s id)
    (simple : IsSimple s.image left param.default)
    (hosts : ∀ id ∈ left, id ≠ SymbolId.nil ∧ ∃ name, IsHost s head.env id name)
    (distinct : param.vars.Nodup)
    (ok : bindKey (compileWithin depth) context specials index first head param s =
      .ok (head', keyword) t) :
    ∃ name flag? default,
      KeyParts index first left s t head head' param name flag? keyword default := by
  obtain ⟨name, s₁, fresh, ok⟩ := ok_of_bind ok
  obtain ⟨keyword', s₂, symbol, ok⟩ := ok_of_bind ok
  obtain ⟨flag?, s₃, flagged, ok⟩ := ok_of_bind ok
  obtain ⟨default, s₄, compiled, ok⟩ := ok_of_bind ok
  obtain ⟨head₅, s₅, boundFlag, ok⟩ := ok_of_bind ok
  obtain ⟨head₆, s₆, bound, ended⟩ := ok_of_bind ok
  cases ended
  obtain ⟨goes₁, madeName⟩ := freshVariableFor_ok ready fresh
  obtain ⟨goes₂, isMade⟩ := symbolLiteral_ok goes₁.ready symbol
  obtain ⟨goes₃, supplied, madeFlag⟩ := keyFlag?_ok goes₂.ready flagged
  have before₃ := (goes₁.trans goes₂).trans goes₃
  have ready₃ : Ready s₃ ((context.withEnv head.env).single).env := goes₃.ready
  have still₃ : ∀ id h, IsHost s₃ head.env id h ↔ IsHost s head.env id h :=
    fun id h => (before₃.binds ready).isHost List.not_mem_nil
  obtain ⟨goes₄, gets⟩ := compileDefault_ok ready₃ (before₃.onward.image ▸ simple)
    (fun id member => by
      obtain ⟨notNil, h, isHost⟩ := hosts id member
      exact ⟨notNil, h, (still₃ id h).mpr isHost⟩) compiled
  have before₄ : GoesOn head.env s s₄ := before₃.trans goes₄
  have ready₄ : Ready s₄ (head.add
      (keyStmts index first name (flag?.map Prod.snd) keyword default)).env := before₄.ready
  have flag_mem : ∀ pair ∈ flag?, pair.1 ∈ param.supplied := by
    rintro pair ⟨⟩
    simp [← supplied]
  obtain ⟨same₅, binds₅, areFlags⟩ := bindKeyFlag_ok ready₄ (fun pair member =>
    (lexical pair.1 (List.mem_cons_of_mem _ (by simpa using flag_mem pair member))).later ready
      before₄.onward) (fun pair member => ((madeFlag _ (Option.mem_map_of_mem _ member)).left
        goes₄.onward.counters).ever) boundFlag
  have upto₅ := (before₄.binds ready).trans binds₅
  obtain ⟨same₆, binds₆, isVar⟩ := bindParameter_ok binds₅.ready
    ((lexical param.var List.mem_cons_self).later ready upto₅.onward)
    (madeName.left (((goes₂.trans goes₃).trans goes₄).onward.counters.trans
      binds₅.onward.counters)).ever bound
  have onward₅ := binds₅.onward.trans binds₆.onward
  have onward₃ := goes₄.onward.trans onward₅
  have onward₂ := goes₃.onward.trans onward₃
  refine ⟨name, flag?, default, (upto₅.trans binds₆).mono ?_, isVar, fun pair member => ?_, supplied,
    madeName.left (goes₂.onward.trans onward₂).counters, fun flag member => ⟨?_, ?_⟩,
    fun call turns c i made holds => isMade call turns c i made (holds.earlier onward₂), ?_, ?_⟩
  · intro id member
    rw [supplied] at member
    simpa [KeyParam.vars, or_comm] using member
  · refine (binds₆.isHost fun again => (List.nodup_cons.mp distinct).1 ?_).mpr (areFlags pair member)
    rw [← List.mem_singleton.mp again]
    simpa using flag_mem pair member
  · exact ((madeFlag flag member).right (goes₁.trans goes₂).onward.counters).left onward₃.counters
  · exact fun same => (madeName.left goes₂.onward.counters).disjoint (same ▸ madeFlag flag member)
  · rw [same₆, same₅]
    rfl
  · intro host agrees call turns c i made holds bound values
    exact before₃.onward.image ▸ gets host (fun id member => (still₃ id _).mpr (agrees id member)) call
      turns c i made (holds.earlier onward₅) bound values

theorem KeyParts.keysBound {c₀ : Counters} {param : KeyParam} {name : String}
    {flag? : Option (SymbolId × String)} {keyword default : Expr}
    (parts : KeyParts index first left s t head head' param name flag? keyword default)
    (simple : IsSimple s.image left param.default) (madeIndex : Made c₀ s.counters index) :
    KeysBound c₀ index first left s t head head' [param] [keyword] := by
  have vars_eq : [param].flatMap KeyParam.vars = param.vars := List.flatMap_singleton ..
  have pairOf : ∀ flag ∈ param.supplied, ∃ h, (flag, h) ∈ flag? := by
    intro flag supplied
    have same := parts.supplied
    rw [Option.mem_def.mp supplied] at same
    obtain ⟨pair, found, rfl⟩ := Option.map_eq_some_iff.mp same
    exact ⟨pair.2, found⟩
  refine ⟨vars_eq ▸ parts.binds, ?_, fun call turns c i made holds =>
    .cons (parts.isKeyword call turns c i made holds) .nil, _, parts.prologue, ?_⟩
  · intro id member
    rw [vars_eq] at member
    rcases List.mem_cons.mp member with rfl | member
    · exact ⟨name, parts.isVar, parts.madeName⟩
    · obtain ⟨h, found⟩ := pairOf id (by simpa using member)
      exact ⟨h, parts.isFlag _ found, (parts.madeFlag h (Option.mem_map_of_mem Prod.snd found)).1⟩
  · intro host agrees named generated call turns c args made i rest entered paired enough defined
      ⟨old, there⟩ absent values
    let changed : String → Prop := fun other =>
      other = index ∨ other = name ∨ other ∈ flag?.map Prod.snd
    have generated' : ∀ other, changed other → ∃ d d', Made d d' other := by
      rintro other (rfl | rfl | member)
      · exact ⟨_, _, madeIndex⟩
      · exact ⟨_, _, parts.madeName⟩
      · exact ⟨_, _, (parts.madeFlag other member).1⟩
    -- None of the variables to the left changes.
    have free : ∀ id ∈ left, ¬ changed (host id) := by
      rintro id member (same | same | inside)
      · exact (generated id member).2 same
      · exact (generated id member).1.disjoint (same ▸ parts.madeName)
      · exact (generated id member).1.disjoint (parts.madeFlag _ inside).1
    have default_ok : ∀ j, Touches c changed i j → GetsOf call turns c j default
        (DefaultHas s.image made (fun id value => i.own? c (host id) = some value) param.default) := by
      intro j touches
      have enteredNext := entered.touches touches generated'
      obtain ⟨value, j', computed, untouched, has⟩ := parts.gets host agrees call turns c j made
        enteredNext.literals enteredNext.receiving.bound fun id member => by
          obtain ⟨value, held⟩ := values id member
          exact touches.there _ value held
      refine ⟨value, j', computed, untouched, has.mono simple fun id member value held => ?_⟩
      rw [← touches.kept _ (free id member), held]
    obtain ⟨j, touches, ran, flags, result⟩ := keyStmts_run entered.receiving paired enough there
      (absent _ name parts.madeName) madeIndex.ne_arguments
      (fun same => madeIndex.disjoint (same ▸ parts.madeName)) parts.madeName.ne_arguments
      (fun flag member => ⟨fun same => madeIndex.disjoint (same ▸ (parts.madeFlag flag member).1),
        (parts.madeFlag flag member).2, (parts.madeFlag flag member).1.ne_arguments⟩)
      (fun j touches => parts.isKeyword call turns c j made
        (entered.touches touches generated').literals) default_ok defined
    have name_eq : host param.var = name :=
      (named _ (vars_eq ▸ List.mem_cons_self)).unique parts.isVar
    refine ⟨j, touches.mono ?_, ran, ?_⟩
    · rintro other (same | rfl | member)
      · exact .inl same
      · exact .inr parts.madeName
      · exact .inr (parts.madeFlag other member).1
    · intro other member
      obtain rfl := List.mem_singleton.mp member
      refine ⟨fun arg found => ?_, fun none_ => ?_, fun flag supplied => ?_⟩
      · obtain ⟨pair, searched, rfl⟩ := Option.map_eq_some_iff.mp found
        rw [searched] at result
        exact name_eq ▸ result
      · rw [Option.map_eq_none_iff.mp none_] at result
        obtain ⟨value, has, held⟩ := result
        refine ⟨value, has.mono simple fun id inside value was => ?_, name_eq ▸ held⟩
        rw [touches.kept _ (free id inside), was]
      · obtain ⟨h, found⟩ := pairOf flag supplied
        have flag_eq : host flag = h := by
          refine (named flag (vars_eq ▸ List.mem_cons_of_mem _ ?_)).unique (parts.isFlag _ found)
          simp [supplied]
        rw [flag_eq, flags h (Option.mem_map_of_mem Prod.snd found), argumentFor?, Option.isSome_map]

/-- Keyword parameters get the leftmost arguments for their keywords, or their defaults. -/
theorem bindKeys_ok {c₀ : Counters} {params : List KeyParam} {keywords : List Expr}
    (ready : Ready s head.env)
    (lexical : ∀ id ∈ params.flatMap KeyParam.vars, IsLexical specials s id)
    (simple : ∀ before param after, params = before ++ param :: after →
      IsSimple s.image (left ++ before.flatMap KeyParam.vars) param.default)
    (hosts : ∀ id ∈ left, id ≠ SymbolId.nil ∧ ∃ name, IsHost s head.env id name)
    (notNil : ∀ id ∈ params.flatMap KeyParam.vars, id ≠ SymbolId.nil)
    (distinct : (left ++ params.flatMap KeyParam.vars).Nodup)
    (madeIndex : Made c₀ s.counters index) (leads : c₀.Leads s.counters)
    (ok : bindKeys (compileWithin depth) context specials index first head params s =
      .ok (head', keywords) t) :
    KeysBound c₀ index first left s t head head' params keywords := by
  induction params generalizing s head left keywords with
  | nil =>
      cases ok
      refine ⟨ready.stays.binds ready, nofun, fun _ _ _ _ _ _ => .nil, [], (add_nil _).symm, ?_⟩
      intro host _ _ _ call turns c args made i rest _ _ _ _ _ _ _
      exact ⟨i, .refl .., rfl, nofun⟩
  | cons param params ih =>
      rw [List.flatMap_cons] at lexical notNil
      rw [bindKeys_cons] at ok
      obtain ⟨⟨head₁, keyword⟩, s₁, one, ok⟩ := ok_of_bind ok
      obtain ⟨⟨head₂, keywords₂⟩, s₂, more, ended⟩ := ok_of_bind ok
      cases ended
      have whole := distinct
      rw [List.flatMap_cons, ← List.append_assoc] at distinct
      obtain ⟨distinct₁, -, -⟩ := List.nodup_append.mp distinct
      obtain ⟨-, distinctOne, apart⟩ := List.nodup_append.mp distinct₁
      have simple₁ : IsSimple s.image left param.default := by simpa using simple [] param params rfl
      obtain ⟨name, flag?, default, parts⟩ := bindKey_parts ready (fun id member =>
        lexical id (List.mem_append_left _ member)) simple₁ hosts distinctOne one
      have first_ := parts.keysBound simple₁ madeIndex
      have vars_eq : [param].flatMap KeyParam.vars = param.vars := List.flatMap_singleton ..
      have onward := first_.binds.onward
      have second := ih first_.binds.ready
        (fun id member => (lexical id (List.mem_append_right _ member)).later ready onward)
        (fun before other after same => by
          rw [onward.image, List.append_assoc]
          exact simple (param :: before) other after (congrArg _ same))
        (fun id member => by
          rcases List.mem_append.mp member with old | new
          · obtain ⟨notNil, h, isHost⟩ := hosts id old
            refine ⟨notNil, h, (first_.binds.isHost fun again => ?_).mpr isHost⟩
            exact apart id old id (vars_eq ▸ again) rfl
          · obtain ⟨h, isHost, -⟩ := first_.hosts id (vars_eq ▸ new)
            exact ⟨notNil id (List.mem_append_left _ new), h, isHost⟩)
        (fun id member => notNil id (List.mem_append_right _ member)) distinct
        (madeIndex.left onward.counters) (leads.trans onward.counters) more
      refine first_.append (vars_eq ▸ second) (fun other member => ?_) whole madeIndex leads
      obtain rfl := List.mem_singleton.mp member
      exact simple₁.mono (List.subset_append_left ..)

end Keys

end LispScript.Compiler
