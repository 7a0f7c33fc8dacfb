import LispScript.Proofs.Prologues

/-!
Heads of functions. A compiled function can be called with any number of arguments: the checks at its
head leave the numbers that its lambda list allows, and the statements after them give every parameter
a value.
-/

namespace LispScript.Discipline

open Script Machine Compiler

section Required

variable {W : World} {s : CompileState} {head : Head} {specials : List SymbolId}

/-- New script parameters, so many of them. -/
structure NewHosts (c c' : Counters) (count : Nat) (hosts : List String) : Prop where
  made : ∀ host ∈ hosts, Made c c' host
  nodup : hosts.Nodup
  length : hosts.length = count

theorem NewHosts.nil (c c' : Counters) : NewHosts c c' 0 [] := ⟨nofun, List.nodup_nil, rfl⟩

theorem NewHosts.append {c c' c'' : Counters} {n m : Nat} {hosts more : List String}
    (first : NewHosts c c' n hosts) (second : NewHosts c' c'' m more) (leads : c.Leads c')
    (leads' : c'.Leads c'') :
    NewHosts c c'' (n + m) (hosts ++ more) := by
  refine ⟨fun host member => ?_, ?_, by simp [first.length, second.length]⟩
  · rcases List.mem_append.mp member with inside | inside
    · exact (first.made host inside).left leads'
    · exact (second.made host inside).right leads
  · refine List.nodup_append.mpr ⟨first.nodup, second.nodup, ?_⟩
    rintro host inside _ there rfl
    exact (first.made host inside).disjoint (second.made host there)

theorem NewHosts.one {c c' : Counters} {host : String} (made : Made c c' host) :
    NewHosts c c' 1 [host] :=
  ⟨by simpa using made, by simp, rfl⟩

theorem Built.bindRequired (ok : CompilerOk W s) (env : HeadOk W s head) (vars : List SymbolId) :
    Built W s (Compiler.bindRequired specials head vars) fun W' s' result =>
      HeadOk W' s' result.1 ∧ NewHosts s.counters s'.counters vars.length result.2 ∧
        ∀ params, Only params s.counters s'.counters result.2 →
          Goes params s s' head result.1 (fun frame => ∀ host ∈ result.2, frame.Has host .datum)
            fun _ => True := by
  induction vars generalizing W s head with
  | nil => exact Built.gives ok ⟨env, .nil _ _, fun params _ => Goes.refl fun _ _ => trivial⟩
  | cons var vars ih =>
      rw [Compiler.bindRequired]
      refine Built.bind (Built.freshVariableFor ok var) fun W₁ s₁ host first ok₁ made => ?_
      refine Built.bind (Built.bindParameter ok₁ (env.further first) specials var host)
        fun W₂ s₂ head₂ second ok₂ bound => ?_
      refine Built.bind (ih ok₂ bound.1) fun W₃ s₃ result third ok₃ held => ?_
      obtain ⟨head₃, hosts⟩ := result
      obtain ⟨env₃, new, goes⟩ := held
      have leads₁ := first.progress.counters
      have leads₂ := second.progress.counters
      have leads₃ := third.progress.counters
      have made₂ : NewHosts s.counters s₂.counters 1 [host] := .one (made.left leads₂)
      refine Built.gives ok₃ ⟨env₃, ?_, fun params only => ?_⟩
      · rw [List.length_cons, Nat.add_comm]
        exact made₂.append new (leads₁.trans leads₂) leads₃
      · obtain ⟨onlyHost, onlyRest⟩ := only.split (leads₁.trans leads₂) leads₃ made₂.made new.made
        have apart : Only params s₁.counters s₂.counters [] := onlyHost.apart made leads₁
        refine ((Goes.stay first.progress (AsksNoMore.refl _) rfl fun _ known => known).trans
          (bound.2 params apart) second.progress fun _ _ later known _ =>
            later.has (known host List.mem_cons_self)).trans (goes params onlyRest) third.progress ?_
        exact fun _ _ later known _ other member =>
          later.has (known other (List.mem_cons_of_mem _ member))

end Required

section Optional

variable {W : World} {s : CompileState} {head : Head} {specials : List SymbolId}

/-- How many arguments a function was called with, the acceptor among them. -/
def Frame.Called (frame : Frame) (count : Nat) : Prop :=
  frame.kinds "arguments" = some (.arguments count)

theorem Frame.Later.called {params : List String} {frame frame' : Frame} {count : Nat}
    (later : frame.Later params frame') (called : frame.Called count) :
    frame'.Called count :=
  later.kept _ _ called

theorem Frame.Called.count_datum {frame : Frame} {count : Nat} (called : frame.Called count) :
    Derivable frame (.expr argumentCount .datum) :=
  .arithmetic (by decide) (.argumentsLength called) .number

/-- Whether an optional parameter was given. -/
theorem Frame.Called.given {frame : Frame} {count : Nat} (called : frame.Called count)
    (position : Nat) :
    Derivable frame
      (.expr (.cond (.binary .gt argumentCount (countLiteral position)) .t .nil) .datum) :=
  .choose (by decide) called.count_datum .number (.widen Kind.symbol_within_datum .t)
    (.widen Kind.symbol_within_datum .nil)

/-- The definition of the variable that tells whether an optional parameter was given. -/
def flagStmt (flag : String) (position : Nat) : Stmt :=
  .define flag (.cond (.binary .gt argumentCount (countLiteral position)) .t .nil)

theorem Goes.flag {s₁ s₂ : CompileState} {head₂ : Head} {flag : String} {position : Nat}
    (made : Made s.counters s₁.counters flag) (first : Progress s s₁) (second : Progress s₁ s₂)
    (bound : ∀ params, Only params s₁.counters s₂.counters [] →
      Goes params s₁ s₂ (head.add [flagStmt flag position]) head₂
        (fun frame => frame.Has flag .datum) fun frame => frame.Has flag .datum)
    {params : List String} (only : Only params s.counters s₂.counters []) :
    Goes params s s₂ head head₂ (fun frame => ∃ count, frame.Called count) fun _ => True := by
  have outside : flag ∉ params := only.outside (made.left second.counters)
  have defined : Goes params s s₁ head (head.add [flagStmt flag position])
      (fun frame => ∃ count, frame.Called count) fun frame => frame.Has flag .datum :=
    Goes.define made outside first fun late frame _ _ ⟨count, called⟩ => called.given position
  refine (defined.trans (bound params fun name member again =>
    only name member (again.right first.counters)) second fun _ _ _ _ has => has).mono ?_
  exact fun _ _ _ _ _ => trivial

theorem Built.bindSupplied (ok : CompilerOk W s) (env : HeadOk W s head) (position : Nat)
    (params : List OptionalParam) :
    Built W s (Compiler.bindSupplied specials head position params) fun W' s' result =>
      HeadOk W' s' result.1 ∧ NewHosts s.counters s'.counters params.length result.2 ∧
        ∀ names, Only names s.counters s'.counters result.2 →
          Goes names s s' head result.1 (fun frame => ∃ count, frame.Called count)
            fun _ => True := by
  induction params generalizing W s head position with
  | nil => exact Built.gives ok ⟨env, .nil _ _, fun names _ => Goes.refl fun _ _ => trivial⟩
  | cons param params ih =>
      rw [Compiler.bindSupplied]
      refine Built.bind (Built.freshVariableFor ok param.var) fun W₁ s₁ host first ok₁ made => ?_
      have leads₁ := first.progress.counters
      have env₁ : HeadOk W₁ s₁ head := env.further first
      have rest : ∀ W₂ s₂ head₂, Further W₁ s₁ W₂ s₂ → CompilerOk W₂ s₂ → HeadOk W₂ s₂ head₂ →
          (∀ names, Only names s₁.counters s₂.counters [] →
            Goes names s₁ s₂ head head₂ (fun frame => ∃ count, frame.Called count)
              fun _ => True) →
          Built W₂ s₂ (do
            let result ← Compiler.bindSupplied specials head₂ (position + 1) params
            return (result.1, host :: result.2)) fun W' s' result =>
            HeadOk W' s' result.1 ∧ NewHosts s.counters s'.counters (param :: params).length result.2 ∧
              ∀ names, Only names s.counters s'.counters result.2 →
                Goes names s s' head result.1 (fun frame => ∃ count, frame.Called count)
                  fun _ => True := by
        intro W₂ s₂ head₂ second ok₂ env₂ flagged
        refine Built.bind (ih ok₂ env₂ (position + 1)) fun W₃ s₃ result third ok₃ held => ?_
        obtain ⟨head₃, hosts⟩ := result
        obtain ⟨env₃, new, goes⟩ := held
        have leads₂ := second.progress.counters
        have leads₃ := third.progress.counters
        have made₂ : NewHosts s.counters s₂.counters 1 [host] := .one (made.left leads₂)
        refine Built.gives ok₃ ⟨env₃, ?_, fun names only => ?_⟩
        · rw [List.length_cons, Nat.add_comm]
          exact made₂.append new (leads₁.trans leads₂) leads₃
        · obtain ⟨onlyHost, onlyRest⟩ :=
            only.split (leads₁.trans leads₂) leads₃ made₂.made new.made
          refine ((Goes.stay first.progress (AsksNoMore.refl _) rfl fun _ known => known).trans
            (flagged names (onlyHost.apart made leads₁)) second.progress
              fun _ _ _ _ known => known).trans (goes names onlyRest) third.progress ?_
          exact fun _ _ later called _ => called.imp fun _ called => later.called called
      cases param.supplied with
      | none =>
          exact rest W₁ s₁ head (Further.refl _ _) ok₁ env₁ fun names _ =>
            Goes.refl fun _ _ => trivial
      | some supplied =>
          refine Built.bind (Built.freshVariableFor ok₁ supplied)
            fun W₂ s₂ flag second ok₂ madeFlag => ?_
          have env₂ : HeadOk W₂ s₂ (head.add [flagStmt flag position]) := env₁.further second
          refine Built.bind (Built.bindParameter ok₂ env₂ specials supplied flag)
            fun W₃ s₃ head₃ third ok₃ bound => ?_
          exact rest W₃ s₃ head₃ (second.trans third) ok₃ bound.1 fun names only =>
            Goes.flag madeFlag second.progress third.progress bound.2 only

end Optional

section Defaults

/-- Script parameters for optional ones, from a position on: those that were given have values, and the
others are there without. -/
def Frame.Awaits (frame : Frame) (count : Nat) : Nat → List String → Prop
  | _, [] => True
  | position, host :: hosts =>
      (if position + 1 < count then frame.Has host .datum
        else frame.Fresh host ∧ host ∈ frame.pending) ∧
      frame.Awaits count (position + 1) hosts

theorem Frame.Later.awaits {params : List String} {frame frame' : Frame} {count position : Nat}
    {hosts : List String} (later : frame.Later params frame')
    (included : ∀ host ∈ hosts, host ∈ params) (awaits : frame.Awaits count position hosts) :
    frame'.Awaits count position hosts := by
  induction hosts generalizing position with
  | nil => trivial
  | cons host hosts ih =>
      obtain ⟨here, others⟩ := awaits
      refine ⟨?_, ih (fun other member => included other (List.mem_cons_of_mem _ member)) others⟩
      split
      · rename_i given
        rw [if_pos given] at here
        exact later.has here
      · rename_i missing
        rw [if_neg missing] at here
        obtain ⟨⟨unknown, unreserved⟩, pending⟩ := here
        exact ⟨⟨(later.same host (included host List.mem_cons_self)).trans unknown, unreserved⟩,
          later.pending host pending⟩

variable {W : World} {s : CompileState} {head : Head} {specials : List SymbolId}
  {compile : FormCompiler} {context : Context} {c₀ : Counters}

/-- Optional parameters with the script parameters that were made for them earlier. -/
structure MadeFor (W : World) (c₀ c : Counters) (params : List (OptionalParam × String)) : Prop where
  made : ∀ param ∈ params, Made c₀ c param.2
  nodup : (params.map Prod.snd).Nodup
  defaults : ∀ param ∈ params, W.Datum param.1.default

theorem MadeFor.tail {c : Counters} {param : OptionalParam × String}
    {params : List (OptionalParam × String)} (known : MadeFor W c₀ c (param :: params)) :
    MadeFor W c₀ c params :=
  ⟨fun other member => known.made other (List.mem_cons_of_mem _ member),
    (List.nodup_cons.mp known.nodup).2,
    fun other member => known.defaults other (List.mem_cons_of_mem _ member)⟩

theorem MadeFor.further {W' : World} {s' : CompileState} {params : List (OptionalParam × String)}
    (known : MadeFor W c₀ s.counters params) (further : Further W s W' s') :
    MadeFor W' c₀ s'.counters params :=
  ⟨fun param member => (known.made param member).left further.progress.counters, known.nodup,
    fun param member => further.datum (known.defaults param member)⟩

/-- The names that await values were made earlier. -/
theorem MadeFor.old {c : Counters} {params : List (OptionalParam × String)}
    (known : MadeFor W c₀ c params) (name : String) (member : name ∈ params.map Prod.snd) :
    ∃ c₀, Made c₀ c name := by
  obtain ⟨param, inside, rfl⟩ := List.mem_map.mp member
  exact ⟨c₀, known.made param inside⟩

/-- A missing parameter gets its value. -/
theorem Frame.ServesBut.settle {params : List String} {frame : Frame} {env : Environment}
    {c c' : Counters} {late : CompileState} {host : String}
    (serves : frame.ServesBut params env c late) (fresh : frame.Fresh host)
    (made : Made c₀ c host) (leads : c.Leads c') :
    (frame.bind host .datum).ServesBut params env c' late ∧
      (frame.bind host .datum).Has host .datum :=
  ⟨serves.bind fresh.1 leads .datum fun again => ((made.left leads).disjoint again).elim,
    fresh.2, frame.bind_self host .datum⟩

/-- The default of one parameter. -/
theorem Goes.default {s' : CompileState} {host : String} {code : Expr} {position count : Nat}
    {names : List String} (compiled : Codes head.env s s' code .datum) (progress : Progress s s')
    (made : Made c₀ s.counters host) (outside : host ∉ names)
    (old : ∀ name ∈ names, ∃ c₀, Made c₀ s.counters name) :
    Goes names s s' head (head.add
      [.branch (.binary .le argumentCount (countLiteral position)) [assignStmt host code] []])
      (fun frame => frame.Called count ∧ frame.Awaits count position (host :: names))
      fun frame => frame.Has host .datum := by
  refine Goes.add fun late frame body kind last serves need rest => ?_
  obtain ⟨called, here, others⟩ := need
  refine .supplyDefault called ?_
  split at here
  · rename_i given
    rw [if_neg (by omega)]
    exact rest frame (serves.later progress.counters) (.refl names frame) here
  · rename_i missing
    rw [if_pos (by omega)]
    obtain ⟨fresh, pending⟩ := here
    obtain ⟨serves', has⟩ := serves.settle fresh made progress.counters
    refine .settle fresh pending (compiled late frame last ?_)
      (rest _ serves' (.bind fresh.1 outside .datum) has)
    exact serves.only fun name member _ => old name member

theorem Built.bindDefaultsInOrder (forms : CompilesForms compile) (ok : CompilerOk W s)
    (env : HeadOk W s head) (position : Nat) {params : List (OptionalParam × String)}
    (known : MadeFor W c₀ s.counters params) :
    Built W s (Compiler.bindDefaultsInOrder compile context specials head position params)
      fun W' s' head' => HeadOk W' s' head' ∧ ∀ count,
        Goes [] s s' head head'
          (fun frame => frame.Called count ∧
            frame.Awaits count position (params.map Prod.snd)) fun _ => True := by
  induction params generalizing W s head position with
  | nil => exact Built.gives ok ⟨env, fun count => Goes.refl fun _ _ => trivial⟩
  | cons param params ih =>
      obtain ⟨param, host⟩ := param
      rw [Compiler.bindDefaultsInOrder]
      have env₀ : EnvOk W s (context.withEnv head.env).env := env
      refine Built.bind (Built.compileSingle forms ok env₀ (known.defaults _ List.mem_cons_self))
        fun W₁ s₁ code first ok₁ compiled => ?_
      have env₁ : HeadOk W₁ s₁ (head.add
          [.branch (.binary .le argumentCount (countLiteral position)) [assignStmt host code] []]) :=
        env.further first
      refine Built.bind (Built.bindParameter ok₁ env₁ specials param.var host)
        fun W₂ s₂ head₂ second ok₂ bound => ?_
      refine Builds.since (ih ok₂ bound.1 (position + 1)
        (known.tail.further (first.trans second))) fun W₃ s₃ head₃ third held => ?_
      refine ⟨held.1, fun count => ?_⟩
      have made := known.made _ List.mem_cons_self
      have fresh : host ∉ params.map Prod.snd := (List.nodup_cons.mp known.nodup).1
      have old := known.tail.old
      have apart : Only (params.map Prod.snd) s₁.counters s₂.counters [] := by
        intro name member again
        obtain ⟨c₁, before⟩ := old name member
        exact ((before.left first.progress.counters).disjoint again).elim
      have supplied : Goes (params.map Prod.snd) s s₂ head head₂
          (fun frame => frame.Called count ∧
            frame.Awaits count position (host :: params.map Prod.snd))
          fun frame => frame.Called count ∧
            frame.Awaits count (position + 1) (params.map Prod.snd) :=
        ((Goes.default compiled first.progress made fresh old).trans (bound.2 _ apart)
          second.progress fun _ _ _ _ has => has).mono fun _ _ later need _ =>
            ⟨later.called need.1, later.awaits (fun _ member => member) need.2.2⟩
      exact (supplied.only (fun _ member => (List.not_mem_nil member).elim)
        (first.trans second).progress fun name member _ => old name member).trans (held.2 count)
        third.progress fun _ _ _ _ held => held

/-- The defaults of parameters none of which is dynamic: the code of each, and the environment in
which all are bound. -/
structure CasesFor (s : CompileState) (env : Environment) (position : Nat) (hosts : List String)
    (W' : World) (s' : CompileState) (result : Environment × List Case) : Prop where
  ok : EnvOk W' s' result.1
  cases : ∃ codes : List Expr, result.2 = defaultCode position (hosts.zip codes) ∧
    ∀ late (frame : Frame) (body : List Stmt) kind count, Progress s' late →
      frame.Serves env s.counters late → frame.Awaits count position hosts →
      (∀ frame' : Frame, frame'.Serves result.1 s'.counters late → frame.Later [] frame' →
        Derivable frame' (.returns body kind)) →
      Derivable frame (.returns
        (((hosts.zip codes).drop (count - 1 - position)).map (fun (host, e) => assignStmt host e) ++
          body) kind)

theorem Built.defaultCases (forms : CompilesForms compile) (ok : CompilerOk W s)
    {env : Environment} (envOk : EnvOk W s env) (position : Nat)
    {params : List (OptionalParam × String)} (known : MadeFor W c₀ s.counters params) :
    Built W s (Compiler.defaultCases compile context env position params)
      (CasesFor s env position (params.map Prod.snd)) := by
  induction params generalizing W s env position with
  | nil =>
      refine Built.gives ok ⟨envOk, [], rfl, fun late frame body kind count _ serves _ rest => ?_⟩
      simpa using rest frame serves (.refl [] frame)
  | cons param params ih =>
      obtain ⟨param, host⟩ := param
      rw [Compiler.defaultCases]
      have envOk₀ : EnvOk W s (context.withEnv env).env := envOk
      refine Built.bind (Built.compileSingle forms ok envOk₀ (known.defaults _ List.mem_cons_self))
        fun W₁ s₁ code first ok₁ compiled => ?_
      refine Built.bind (Built.variableBinding ok₁ param.var host false)
        fun W₂ s₂ binding second ok₂ new => ?_
      have before := first.trans second
      have envOk₂ : EnvOk W₂ s₂ (binding :: env) := by
        intro other member
        rcases List.mem_cons.mp member with rfl | member
        · exact new.1
        · exact (envOk other member).further before
      refine Built.bind (ih ok₂ envOk₂ (position + 1) (known.tail.further before))
        fun W₃ s₃ result third ok₃ held => ?_
      obtain ⟨env₃, cases₃⟩ := result
      obtain ⟨envOk₃, codes, rfl, derives⟩ := held
      have made := known.made _ List.mem_cons_self
      have fresh : host ∉ params.map Prod.snd := (List.nodup_cons.mp known.nodup).1
      refine Built.gives ok₃ ⟨envOk₃, code :: codes, rfl,
        fun late frame body kind count last serves awaits rest => ?_⟩
      obtain ⟨here, others⟩ := awaits
      have after := third.progress.trans last
      split at here
      · rename_i given
        rw [show count - 1 - position = count - 1 - (position + 1) + 1 by omega]
        refine derives late frame body kind count last ?_ others rest
        exact (serves.later before.progress.counters).cons (new.2 late frame here)
      · rename_i missing
        obtain ⟨settled, pending⟩ := here
        have none_left : count - 1 - (position + 1) = 0 := by omega
        rw [show count - 1 - position = 0 by omega]
        obtain ⟨serves', has⟩ := Frame.ServesBut.settle serves settled made before.progress.counters
        have later : frame.Later (params.map Prod.snd) (frame.bind host .datum) :=
          .bind settled.1 fresh .datum
        refine .settle settled pending
          (compiled late frame (second.progress.trans after) serves) ?_
        have others' := derives late _ body kind count last (serves'.cons (new.2 late _ has))
          (later.awaits (fun _ member => member) others) fun frame' serves later' =>
            rest frame' serves ((Frame.Later.bind settled.1 List.not_mem_nil .datum).trans later')
        rwa [none_left] at others'

theorem Built.bindDefaults (forms : CompilesForms compile) (ok : CompilerOk W s)
    (env : HeadOk W s head) (position : Nat) {params : List (OptionalParam × String)}
    (known : MadeFor W c₀ s.counters params) :
    Built W s (Compiler.bindDefaults compile context specials head position params)
      fun W' s' head' => HeadOk W' s' head' ∧ ∀ count, position + 1 ≤ count →
        Goes [] s s' head head'
          (fun frame => frame.Called count ∧
            frame.Awaits count position (params.map Prod.snd)) fun _ => True := by
  refine Built.bind (Built.anyM ok fun param _ W s ok => Built.bindsSpecial ok param.1.var specials)
    fun W₁ s₁ dynamic first ok₁ _ => ?_
  have env₁ : HeadOk W₁ s₁ head := env.further first
  have begun : ∀ count, Goes [] s s₁ head head
      (fun frame => frame.Called count ∧ frame.Awaits count position (params.map Prod.snd))
      fun frame => frame.Called count ∧ frame.Awaits count position (params.map Prod.snd) :=
    fun count => Goes.stay first.progress (AsksNoMore.refl _) rfl fun _ held => held
  split
  · refine Builds.since (Built.bindDefaultsInOrder forms ok₁ env₁ position (known.further first))
      fun W₂ s₂ head₂ second held => ⟨held.1, fun count _ => ?_⟩
    exact (begun count).trans (held.2 count) second.progress fun _ _ _ _ held => held
  · split
    · exact Built.gives ok₁ ⟨env₁, fun count _ => (begun count).mono fun _ _ _ _ _ => trivial⟩
    · refine Built.bind (Built.defaultCases forms ok₁ env₁ position (known.further first))
        fun W₂ s₂ result second ok₂ held => ?_
      obtain ⟨env₂, cases₂⟩ := result
      obtain ⟨envOk₂, codes, rfl, derives⟩ := held
      refine Built.gives ok₂ ⟨envOk₂, fun count supplied => ?_⟩
      have selected : Goes [] s₁ s₂ head
          { head.add [.select argumentCount (defaultCode position
            ((params.map Prod.snd).zip codes))] with env := env₂ }
          (fun frame => frame.Called count ∧ frame.Awaits count position (params.map Prod.snd))
          fun _ => True := by
        refine ⟨_, fun _ => Prologue.finish_add _ _ _, fun late frame body kind last serves need rest => ?_⟩
        refine .selectDefaults need.1 supplied ?_
        exact derives late frame body kind count last serves need.2 fun frame' serves' later =>
          rest frame' serves' later trivial
      exact (begun count).trans selected second.progress fun _ _ _ _ held => held

end Defaults

section Rest

variable {W : World} {s : CompileState} {head : Head} {specials : List SymbolId} {first : Nat}

theorem Built.bindRest (ok : CompilerOk W s) (env : HeadOk W s head) (positive : 1 ≤ first)
    (rest : SymbolId) :
    Built W s (Compiler.bindRest specials head first rest) fun W' s' head' =>
      HeadOk W' s' head' ∧ Goes [] s s' head head' (fun frame => ∃ count, frame.Called count)
        fun _ => True := by
  refine Built.bind (Built.freshVariableFor ok rest) fun W₁ s₁ host step₁ ok₁ madeHost => ?_
  refine Built.bind (Built.freshVariable ok₁ "i") fun W₂ s₂ index step₂ ok₂ madeIndex => ?_
  have env₂ : HeadOk W₂ s₂ (head.add (collectRest host index first)) :=
    (env.further step₁).further step₂
  refine Builds.since (Built.bindParameter ok₂ env₂ specials rest host)
    fun W₃ s₃ head₃ step₃ bound => ⟨bound.1, ?_⟩
  have leads₁ := step₁.progress.counters
  have leads₂ := step₂.progress.counters
  have distinct : host ≠ index := fun same => (same ▸ madeHost).disjoint madeIndex
  have collected : Goes [] s s₂ head (head.add (collectRest host index first))
      (fun frame => ∃ count, frame.Called count) fun frame => frame.Has host .datum := by
    refine Goes.add fun late frame body kind last serves need rest => ?_
    obtain ⟨count, called⟩ := need
    obtain ⟨serves', later, has⟩ :=
      serves.bindNew (madeHost.left leads₂) List.not_mem_nil (leads₁.trans leads₂) last.counters
        .datum
    exact .collectRest called positive
      (Frame.Serves.fresh serves (madeHost.left (leads₂.trans last.counters)))
      (Frame.Serves.fresh (serves.later leads₁) (madeIndex.left last.counters)) distinct
      (rest _ serves' later has)
  refine (collected.trans (bound.2 [] fun _ member => (List.not_mem_nil member).elim)
    step₃.progress fun _ _ _ _ has => has).mono ?_
  exact fun _ _ _ _ _ => trivial

end Rest

section Keys

variable {W : World} {s : CompileState} {head : Head} {specials : List SymbolId}
  {compile : FormCompiler} {context : Context} {c₀ : Counters} {index : String} {first : Nat}

/-- Where keyword parameters are bound: the arguments from a position on come in pairs, and a variable
to count them with is there. -/
structure Frame.Searches (frame : Frame) (index : String) (first count : Nat) : Prop where
  called : frame.Called count
  paired : count ≤ first ∨ 2 ∣ count - first
  fresh : frame.Fresh index
  pending : index ∈ frame.pending

theorem Frame.Later.searches {frame frame' : Frame} {count : Nat} (later : frame.Later [index] frame')
    (searches : frame.Searches index first count) :
    frame'.Searches index first count :=
  ⟨later.called searches.called, searches.paired,
    ⟨(later.same index List.mem_cons_self).trans searches.fresh.1, searches.fresh.2⟩,
    later.pending index searches.pending⟩

/-- The statements that give a keyword parameter its value. -/
def keyStmts (index : String) (first : Nat) (host : String) (flag? : Option String)
    (keyword default : Expr) : List Stmt :=
  .declare host :: (flag?.toList.map fun flag => Stmt.define flag .nil) ++
    keyCode index first host flag? keyword default

theorem Goes.key {s₁ s₂ s₃ : CompileState} {host : String} {flag? : Option String}
    {keyword default : Expr} (positive : 1 ≤ first)
    (madeIndex : Made c₀ s.counters index) (madeHost : Made s.counters s₁.counters host)
    (madeFlag : ∀ flag ∈ flag?, Made s₁.counters s₂.counters flag) (symbol : IsSymbol s₂ keyword)
    (compiled : Codes head.env s₂ s₃ default .datum) (progress₁ : Progress s s₁)
    (progress₂ : Progress s₁ s₂) (progress₃ : Progress s₂ s₃) :
    Goes [index] s s₃ head (head.add (keyStmts index first host flag? keyword default))
      (fun frame => ∃ count, frame.Searches index first count)
      fun frame => frame.Has host .datum ∧ ∀ flag ∈ flag?, frame.Has flag .datum := by
  refine Goes.add fun late frame body kind last serves ⟨count, searches⟩ rest => ?_
  have leads₁ := progress₁.counters
  have leads₂ := progress₂.counters
  have hostNe : host ≠ index := by
    rintro rfl
    exact madeIndex.disjoint madeHost
  have hostOut : host ∉ [index] := by simpa using hostNe
  have madeLater : ∀ c c', s₁.counters.Leads c → Made c c' host → host ∈ [index] :=
    fun c c' leads again => ((madeHost.left leads).disjoint again).elim
  -- The search stands where the flag, if there is one, is defined.
  have search : ∀ frame₂ : Frame, frame₂.ServesBut [index] head.env s₂.counters late →
      frame.Later [index] frame₂ → frame₂.Fresh host → host ∈ frame₂.pending →
      (∀ flag ∈ flag?, frame₂.Has flag .datum) →
      Derivable frame₂ (.returns (keyCode index first host flag? keyword default ++ body) kind) := by
    intro frame₂ serves₂ later₂ freshHost pendingHost flags
    have searches₂ := later₂.searches searches
    have serves₂' : frame₂.Serves head.env s₂.counters late :=
      serves₂.only fun name member _ => ⟨c₀, by
        rw [List.mem_singleton.mp member]
        exact madeIndex.left (leads₁.trans leads₂)⟩
    have later₃ : frame₂.Later [index] (frame₂.bind host .datum) := .bind freshHost.1 hostOut .datum
    refine .searchKey searches₂.called positive searches₂.paired freshHost searches₂.fresh hostNe
      pendingHost searches₂.pending
      (symbol frame₂ (serves₂'.knowsLiterals.earlier (progress₃.trans last)))
      (fun flag member => (flags flag member).known) (compiled late frame₂ last serves₂') ?_
    refine rest _ ?_ (later₂.trans later₃) ⟨⟨freshHost.2, frame₂.bind_self host .datum⟩,
      fun flag member => later₃.has (flags flag member)⟩
    exact serves₂.bind freshHost.1 progress₃.counters .datum
      (madeLater _ _ (leads₂.trans progress₃.counters))
  have within₁ := ((progress₂.trans progress₃).trans last).counters
  have within₂ := (progress₃.trans last).counters
  have freshHost := serves.fresh (madeHost.left within₁) hostOut
  have later₁ : frame.Later [index] (frame.pend [host]) := .pend _ _ _
  have serves₁ := (serves.later leads₁).pend [host]
  have pendingHost : host ∈ (frame.pend [host]).pending := List.mem_append_left _ List.mem_cons_self
  refine .declare freshHost ?_
  cases flag? with
  | none => exact search _ (serves₁.later leads₂) later₁ freshHost pendingHost nofun
  | some flag =>
      have made := madeFlag flag rfl
      have flagOut : flag ∉ [index] := by
        intro member
        rw [List.mem_singleton.mp member] at made
        exact (madeIndex.left leads₁).disjoint made
      obtain ⟨serves₂, later₂, has⟩ := serves₁.bindNew made flagOut leads₂ within₂ .datum
      refine .define (serves₁.fresh (made.left within₂) flagOut) ?_
        (.widen Kind.symbol_within_datum .nil)
        (search _ serves₂ (later₁.trans later₂) ⟨?_, freshHost.2⟩ pendingHost ?_)
      · exact id
      · rw [Frame.bind_of_ne]
        · exact freshHost.1
        · rintro rfl
          exact madeHost.disjoint made
      · rintro _ ⟨⟩
        exact has

/-- What the search for keywords is bound to: a head, and code for the keywords. -/
structure KeysFor (index : String) (first : Nat) (s : CompileState) (head : Head) (W' : World)
    (s' : CompileState) (result : Head × List Expr) : Prop where
  env : HeadOk W' s' result.1
  keywords : ∀ keyword ∈ result.2, IsSymbol s' keyword
  goes : Goes [index] s s' head result.1 (fun frame => ∃ count, frame.Searches index first count)
    fun _ => True

/-- The flag of a keyword parameter. -/
theorem Built.flag? (ok : CompilerOk W s) (supplied : Option SymbolId) :
    Built W s (supplied.mapM fun supplied => do
        return (supplied, ← Compiler.freshVariableFor supplied)) fun _ s' flag? =>
      ∀ flag ∈ flag?.map Prod.snd, Made s.counters s'.counters flag := by
  cases supplied with
  | none => exact Built.gives ok nofun
  | some supplied =>
      have paired : Built W s (do return (supplied, ← Compiler.freshVariableFor supplied))
          fun _ s' pair => Made s.counters s'.counters pair.2 :=
        Built.bind (Built.freshVariableFor ok supplied) fun _ _ _ _ ok₁ made => Built.gives ok₁ made
      refine Built.bind paired fun _ _ pair _ ok₁ made => Built.gives ok₁ ?_
      rintro _ ⟨⟩
      exact made

theorem Built.bindKeys (forms : CompilesForms compile) (ok : CompilerOk W s) (env : HeadOk W s head)
    (positive : 1 ≤ first) (madeIndex : Made c₀ s.counters index) {params : List KeyParam}
    (data : ∀ param ∈ params, W.Datum param.default) :
    Built W s (Compiler.bindKeys compile context specials index first head params)
      (KeysFor index first s head) := by
  induction params generalizing W s head with
  | nil => exact Built.gives ok ⟨env, nofun, Goes.refl fun _ _ => trivial⟩
  | cons param params ih =>
      obtain ⟨datum, others⟩ := List.forall_mem_cons.mp data
      rw [Compiler.bindKeys]
      refine Built.bind (Built.freshVariableFor ok param.var) fun W₁ s₁ host step₁ ok₁ madeHost => ?_
      refine Built.bind (Built.symbolLiteral ok₁ param.keyword)
        fun W₂ s₂ keyword step₂ ok₂ symbol => ?_
      refine Built.bind (Built.flag? ok₂ param.supplied) fun W₃ s₃ flag? step₃ ok₃ madeFlag => ?_
      have before := (step₁.trans step₂).trans step₃
      have env₃ : EnvOk W₃ s₃ (context.withEnv head.env).env := env.further before
      refine Built.bind (Built.compileSingle forms ok₃ env₃ (before.datum datum))
        fun W₄ s₄ default step₄ ok₄ compiled => ?_
      have searched := Goes.key positive madeIndex madeHost
        (fun flag member => (madeFlag flag member).right step₂.progress.counters)
        (symbol.later step₃.progress) compiled step₁.progress (step₂.trans step₃).progress
        step₄.progress
      have before₄ := before.trans step₄
      have rest : ∀ W₅ s₅ head₅, Further W₄ s₄ W₅ s₅ → CompilerOk W₅ s₅ → HeadOk W₅ s₅ head₅ →
          Goes [index] s₄ s₅
            (head.add (keyStmts index first host (flag?.map Prod.snd) keyword default)) head₅
            (fun frame => frame.Has host .datum ∧
              ∀ flag ∈ flag?.map Prod.snd, frame.Has flag .datum)
            (fun frame => frame.Has host .datum) →
          Built W₅ s₅ (do
            let head ← Compiler.bindParameter specials head₅ param.var host
            let result ← Compiler.bindKeys compile context specials index first head params
            return (result.1, keyword :: result.2)) (KeysFor index first s head) := by
        intro W₅ s₅ head₅ step₅ ok₅ env₅ flagged
        have before₅ := before₄.trans step₅
        refine Built.bind (Built.bindParameter ok₅ env₅ specials param.var host)
          fun W₆ s₆ head₆ step₆ ok₆ bound => ?_
        have before₆ := before₅.trans step₆
        refine Built.bind (ih ok₆ bound.1 (madeIndex.left before₆.progress.counters)
          fun other member => before₆.datum (others other member))
          fun W₇ s₇ result step₇ ok₇ held => ?_
        obtain ⟨head₇, keywords⟩ := result
        have apart : Only [index] _ s₆.counters [] :=
          Only.old (madeIndex.left before₅.progress.counters)
        refine Built.gives ok₇ ⟨held.env, ?_, ?_⟩
        · intro other member
          rcases List.mem_cons.mp member with rfl | member
          · exact symbol.later ((((step₃.trans step₄).trans step₅).trans step₆).trans step₇).progress
          · exact held.keywords other member
        · have supplied := (searched.trans flagged step₅.progress fun _ _ _ _ held => held).trans
            (bound.2 [index] apart) step₆.progress fun _ _ _ _ has => has
          exact supplied.trans held.goes step₇.progress fun _ _ later searches _ =>
            searches.imp fun _ searches => later.searches searches
      cases flag? with
      | none =>
          have env₄ : HeadOk W₄ s₄ (head.add (keyStmts index first host none keyword default)) :=
            env.further before₄
          exact rest W₄ s₄ _ (Further.refl _ _) ok₄ env₄ (Goes.refl fun _ has => has.1)
      | some flag =>
          obtain ⟨supplied, flag⟩ := flag
          have env₄ : HeadOk W₄ s₄ (head.add
            (keyStmts index first host (some flag) keyword default)) := env.further before₄
          refine Built.bind (Built.bindParameter ok₄ env₄ specials supplied flag)
            fun W₅ s₅ head₅ step₅ ok₅ bound => ?_
          have apart : Only [index] _ s₅.counters [] :=
            Only.old (madeIndex.left before₄.progress.counters)
          refine rest W₅ s₅ head₅ step₅ ok₅ bound.1 ((bound.2 [index] apart).adapt ?_ ?_)
          · exact fun _ held => held.2 flag rfl
          · exact fun _ _ later held _ => later.has held.1

/-- The section of keyword parameters. Calls with an odd number of keyword arguments stop at its
head. -/
theorem Built.bindKeySection (forms : CompilesForms compile) (ok : CompilerOk W s)
    (env : HeadOk W s head) (positive : 1 ≤ first) {list : LambdaList}
    (defaults : DefaultsOk W list) :
    Built W s (Compiler.bindKeySection compile context specials head list first)
      fun W' s' head' => HeadOk W' s' head' ∧
        Goes [] s s' head head' (fun frame => ∃ count, frame.Called count) fun _ => True := by
  refine Built.bind (Built.freshVariable ok "i") fun W₁ s₁ index step₁ ok₁ madeIndex => ?_
  have env₁ : HeadOk W₁ s₁ (head.add [.declare index, pairCheck first]) := env.further step₁
  refine Built.bind (Built.bindKeys forms ok₁ env₁ positive madeIndex
    fun param member => step₁.datum (defaults.keys param member))
    fun W₂ s₂ result step₂ ok₂ keys => ?_
  obtain ⟨head₂, keywords⟩ := result
  have begun : Goes [] s s₁ head (head.add [.declare index, pairCheck first])
      (fun frame => ∃ count, frame.Called count)
      fun frame => ∃ count, frame.Searches index first count := by
    refine Goes.add fun late frame body kind last serves ⟨count, called⟩ rest => ?_
    have fresh := Frame.Serves.fresh serves (madeIndex.left last.counters)
    have later : frame.Later [] (frame.pend [index]) := .pend _ _ _
    refine .declare fresh (.pairCheck (later.called called) fun paired => ?_)
    exact rest _ ((serves.later step₁.progress.counters).pend [index]) later
      ⟨count, later.called called, paired, fresh, List.mem_append_left _ List.mem_cons_self⟩
  have searched : Goes [] s s₂ head head₂ (fun frame => ∃ count, frame.Called count)
      fun frame => ∃ count, frame.Searches index first count := by
    refine begun.trans ?_ step₂.progress fun _ _ _ _ held => held
    refine (keys.goes.mono fun _ _ later held _ => ?_).only
      (fun _ member => (List.not_mem_nil member).elim) step₂.progress fun name member _ =>
        ⟨s.counters, List.mem_singleton.mp member ▸ madeIndex⟩
    exact held.imp fun _ searches => later.searches searches
  dsimp only
  split
  · exact Built.gives ok₂ ⟨keys.env, searched.mono fun _ _ _ _ _ => trivial⟩
  · refine Built.bind (Built.symbolLiteral ok₂ _) fun W₃ s₃ allowKey step₃ ok₃ symbol => ?_
    refine Built.bind (Built.freshVariable ok₃ "allow") fun W₄ s₄ allow step₄ ok₄ madeAllow => ?_
    refine Built.gives ok₄ ⟨(keys.env.further step₃).further step₄, ?_⟩
    refine searched.trans (Goes.add fun late frame body kind last serves ⟨count, searches⟩ rest => ?_)
      (step₃.trans step₄).progress fun _ _ _ _ held => held
    have serves₃ := serves.later step₃.progress.counters
    have knows : frame.KnowsLiterals late := serves.knowsLiterals
    have distinct : allow ≠ index := by
      rintro rfl
      exact (madeIndex.left (step₂.trans step₃).progress.counters).disjoint madeAllow
    refine .unknownKeys searches.called positive searches.paired searches.fresh searches.pending
      (Frame.Serves.fresh serves₃ (madeAllow.left last.counters)) distinct (fun keyword member => ?_)
      (symbol frame (knows.earlier (step₄.progress.trans last)))
      (rest frame (serves₃.later step₄.progress.counters) (.refl [] frame) trivial)
    exact keys.keywords keyword member frame
      (knows.earlier ((step₃.trans step₄).progress.trans last))

end Keys

section Entering

variable {frame : Frame} {count : Nat}

/-- The checks at a function's head leave calls with enough arguments. -/
theorem Frame.Called.arity (called : frame.Called count) (positive : 1 ≤ count) (list : LambdaList)
    {body : List Stmt} {kind : Kind}
    (rest : list.required.length + 1 ≤ count → Derivable frame (.returns body kind)) :
    Derivable frame (.returns (arityChecks list ++ body) kind) := by
  unfold arityChecks
  dsimp only
  split
  · exact .checkArgs called fun exact_ => rest (by omega)
  · have most : list.required.length + 1 ≤ count →
        Derivable frame (.returns ((if list.isVariadic then [] else
          [.effect (.callRoutine .checkArgsAtMost [argumentCount,
            countLiteral (list.required.length + list.optional.length)])]) ++ body) kind) := by
      intro enough
      split
      · exact rest enough
      · exact .checkArgsAtMost called (rest enough)
    rw [List.append_assoc]
    split
    · exact .checkArgsAtLeast called most
    · exact most (by omega)

theorem Frame.enter_of_notMem (manyValues : Bool) {hosts : List String} {name : String}
    (unreserved : name ∉ reservedNames) (outside : name ∉ hosts.take (count - 1)) :
    (frame.enter manyValues count hosts).kinds name = frame.kinds name := by
  have arguments_ne : name ≠ "arguments" := fun same => unreserved (same ▸ by decide)
  have values_ne : name ≠ "values" := fun same => unreserved (same ▸ by decide)
  simp [Frame.enter, Frame.pend, Frame.bindAll, Frame.bind, Frame.inside, Layout.bind, outside,
    arguments_ne, values_ne]

theorem Frame.enter_of_mem (manyValues : Bool) {hosts : List String} {name : String}
    (inside : name ∈ hosts.take (count - 1)) :
    (frame.enter manyValues count hosts).kinds name = some .datum := by
  simp [Frame.enter, Frame.pend, Frame.bindAll, inside]

theorem Frame.CanEnter.reserved {hosts : List String} (canEnter : frame.CanEnter hosts)
    {name : String} (reserved : name ∈ reservedNames) :
    name ∉ hosts.take (count - 1) :=
  fun member => (canEnter.2 name (List.mem_of_mem_take member)).2 reserved

theorem Frame.CanEnter.called {hosts : List String} (canEnter : frame.CanEnter hosts)
    (manyValues : Bool) :
    (frame.enter manyValues count hosts).Called count := by
  have outside : "arguments" ∉ hosts.take (count - 1) := canEnter.reserved (by decide)
  simp [Frame.Called, Frame.enter, Frame.pend, Frame.bindAll, Frame.bind, Layout.bind, outside]

theorem Frame.CanEnter.values {hosts : List String} (canEnter : frame.CanEnter hosts)
    (manyValues : Bool) :
    (frame.enter manyValues count hosts).kinds "values" = some (.acceptor manyValues) := by
  have outside : "values" ∉ hosts.take (count - 1) := canEnter.reserved (by decide)
  simp [Frame.enter, Frame.pend, Frame.bindAll, Frame.bind, Layout.bind, outside]

/-- A function's body serves what is around it, but for its parameters. -/
theorem Frame.Serves.enter {env : Environment} {c c' : Counters} {late : CompileState} {n : Nat}
    {hosts : List String} (serves : frame.Serves env c late) (new : NewHosts c c' n hosts)
    (within : c'.Leads late.counters) (manyValues : Bool) (count : Nat) :
    (frame.enter manyValues count hosts).ServesBut hosts env c late := by
  refine ServesBut.change serves (fun name kind has => has.mono ?_) fun name made outside => ?_
  · refine frame.enter_of_notMem manyValues has.unreserved fun member => ?_
    have fresh := (serves.fresh ((new.made name (List.mem_of_mem_take member)).left within)).1
    rw [has.known] at fresh
    cases fresh
  · rw [frame.enter_of_notMem manyValues made.unreserved fun member =>
      outside (List.mem_of_mem_take member)]
    exact serves.unmade name made List.not_mem_nil

/-- The parameters that were given have values, and the others are there without. -/
theorem Frame.CanEnter.awaits {manyValues : Bool} {before rest : List String}
    (canEnter : frame.CanEnter (before ++ rest)) :
    (frame.enter manyValues count (before ++ rest)).Awaits count before.length rest := by
  induction rest generalizing before with
  | nil => trivial
  | cons host rest ih =>
      have fresh := canEnter.2 host (by simp)
      have later := @ih (before ++ [host])
      simp only [List.append_assoc, List.singleton_append, List.length_append,
        List.length_singleton] at later
      refine ⟨?_, later canEnter⟩
      split
      · rename_i given
        refine ⟨fresh.2, frame.enter_of_mem manyValues ?_⟩
        rw [List.take_append, List.take_of_length_le (by omega),
          show count - 1 - before.length = count - 2 - before.length + 1 by omega]
        simp
      · rename_i missing
        have outside : host ∉ (before ++ host :: rest).take (count - 1) := by
          rw [List.take_append_of_le_length (by omega)]
          intro member
          exact List.disjoint_of_nodup_append canEnter.1 (List.mem_of_mem_take member)
            List.mem_cons_self
        refine ⟨⟨(frame.enter_of_notMem manyValues fresh.2 outside).trans fresh.1, fresh.2⟩, ?_⟩
        exact List.mem_append_left _ (by simp)

/-- Enough arguments give every required parameter its value. -/
theorem Frame.CanEnter.required {manyValues : Bool} {hosts more : List String}
    (canEnter : frame.CanEnter (hosts ++ more)) (enough : hosts.length + 1 ≤ count) :
    ∀ host ∈ hosts, (frame.enter manyValues count (hosts ++ more)).Has host .datum := by
  intro host member
  refine ⟨(canEnter.2 host (List.mem_append_left _ member)).2, frame.enter_of_mem manyValues ?_⟩
  rw [List.take_append, List.take_of_length_le (by omega)]
  exact List.mem_append_left _ member

end Entering

end LispScript.Discipline
