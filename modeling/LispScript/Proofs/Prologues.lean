import LispScript.Proofs.Expansion

/-!
Prologues. The statements that bind names are put around those that follow, so a step that binds a name
is told by what it asks of the frame before it and what holds of the frame in which the rest stands.
-/

namespace LispScript.Discipline

open Script Machine Compiler

section Finishing

variable (prologue : Prologue) (body : List Stmt)

theorem Prologue.finish_empty : Prologue.finish {} body = body := rfl

theorem Prologue.finish_add (stmts : List Stmt) :
    (prologue.add stmts).finish body = prologue.finish (stmts ++ body) := by
  simp only [Prologue.finish, Prologue.add, List.append_assoc]

theorem Prologue.finish_section (before : List Stmt) (restore : Stmt) :
    Prologue.finish { current := [], sections := (prologue.current ++ before, restore) ::
      prologue.sections } body =
      prologue.finish (before ++ [.guarded body .none (.always [restore])]) := by
  simp only [Prologue.finish, List.foldl_cons, List.nil_append, List.append_assoc]

end Finishing

section Frames

/-- A frame that knows more. The named variables are as they were. -/
structure Frame.Later (params : List String) (frame frame' : Frame) : Prop where
  kept : ∀ name kind, frame.kinds name = some kind → frame'.kinds name = some kind
  same : ∀ name ∈ params, frame'.kinds name = frame.kinds name
  pending : ∀ name ∈ frame.pending, name ∈ frame'.pending

variable {params others : List String} {frame frame' frame'' : Frame} {env : Environment}
  {c c' c'' : Counters} {late : CompileState} {name : String} {kind : Kind}

theorem Frame.Later.refl (params : List String) (frame : Frame) : frame.Later params frame :=
  ⟨fun _ _ known => known, fun _ _ => rfl, fun _ member => member⟩

theorem Frame.Later.trans (first : frame.Later params frame')
    (second : frame'.Later params frame'') :
    frame.Later params frame'' :=
  ⟨fun name kind known => second.kept name kind (first.kept name kind known),
    fun name member => (second.same name member).trans (first.same name member),
    fun name member => second.pending name (first.pending name member)⟩

theorem Frame.Later.fewer (later : frame.Later params frame')
    (fewer : ∀ name ∈ others, name ∈ params) :
    frame.Later others frame' :=
  ⟨later.kept, fun name member => later.same name (fewer name member), later.pending⟩

theorem Frame.Later.has (later : frame.Later params frame') (has : frame.Has name kind) :
    frame'.Has name kind :=
  ⟨has.unreserved, later.kept name kind has.known⟩

theorem Frame.Later.accepts (later : frame.Later params frame') {acceptor : Expr}
    {manyValues : Bool} (accepts : frame.Accepts acceptor manyValues) :
    frame'.Accepts acceptor manyValues :=
  accepts.imp_right fun named => ⟨named.1, later.kept _ _ named.2⟩

theorem Frame.Later.bind (fresh : frame.kinds name = none) (outside : name ∉ params)
    (kind : Kind) :
    frame.Later params (frame.bind name kind) := by
  refine ⟨fun other held known => ?_, fun other member => ?_, fun _ member => member⟩
  · rw [frame.bind_of_ne _ kind]
    · exact known
    · rintro rfl
      rw [fresh] at known
      cases known
  · rw [frame.bind_of_ne _ kind]
    rintro rfl
    exact outside member

theorem Frame.Later.pend (params : List String) (frame : Frame) (names : List String) :
    frame.Later params (frame.pend names) :=
  ⟨fun _ _ known => known, fun _ _ => rfl, fun _ member => List.mem_append_right _ member⟩

/-- More names may be known beforehand. -/
theorem Frame.ServesBut.more (serves : frame.ServesBut params env c late)
    (more : ∀ name ∈ params, name ∈ others) :
    frame.ServesBut others env c late :=
  ⟨fun name made outside => serves.unmade name made fun member => outside (more name member),
    serves.bindings, serves.literals⟩

/-- Names that were made before need not be told of. -/
theorem Frame.ServesBut.only (serves : frame.ServesBut others env c late)
    (old : ∀ name ∈ others, name ∉ params → ∃ c₀, Made c₀ c name) :
    frame.ServesBut params env c late := by
  refine ⟨fun name made outside => serves.unmade name made fun member => ?_,
    serves.bindings, serves.literals⟩
  obtain ⟨c₀, before⟩ := old name member outside
  exact before.disjoint made

/-- A new variable of the scope. -/
theorem Frame.ServesBut.bindNew (serves : frame.ServesBut params env c late) (made : Made c c' name)
    (outside : name ∉ params) (leads : c.Leads c') (within : c'.Leads late.counters) (kind : Kind) :
    (frame.bind name kind).ServesBut params env c' late ∧
      frame.Later params (frame.bind name kind) ∧ (frame.bind name kind).Has name kind :=
  have fresh := (serves.fresh (made.left within) outside).1
  ⟨serves.bind fresh leads kind fun again => (made.disjoint again).elim,
    .bind fresh outside kind, made.unreserved, frame.bind_self name kind⟩

end Frames

section Goes

/-- A head goes on: its prologue is put around the statements to come, which then stand in a frame
that serves the names bound by now. -/
def Goes (params : List String) (s s' : CompileState) (head head' : Head)
    (needs gives : Frame → Prop) : Prop :=
  ∃ around : List Stmt → List Stmt,
    (∀ body, head'.prologue.finish body = head.prologue.finish (around body)) ∧
    ∀ late frame body kind, Progress s' late → frame.ServesBut params head.env s.counters late →
      needs frame →
      (∀ frame' : Frame, frame'.ServesBut params head'.env s'.counters late →
        frame.Later params frame' → gives frame' → Derivable frame' (.returns body kind)) →
      Derivable frame (.returns (around body) kind)

variable {params others : List String} {s s₁ s₂ : CompileState} {head head₁ head₂ : Head}
  {needs given wants gives : Frame → Prop}

theorem Goes.stay (progress : Progress s s₁) (env : AsksNoMore head.env head₁.env)
    (prologue : head₁.prologue = head.prologue) (held : ∀ frame, needs frame → gives frame) :
    Goes params s s₁ head head₁ needs gives := by
  refine ⟨id, fun _ => by rw [prologue, id], fun late frame _ _ _ serves need rest => ?_⟩
  exact rest frame ((serves.later progress.counters).noMore env) (.refl params frame) (held frame need)

theorem Goes.refl (held : ∀ frame, needs frame → gives frame) :
    Goes params s s head head needs gives :=
  Goes.stay (Progress.refl s) (AsksNoMore.refl _) rfl held

theorem Goes.trans (first : Goes params s s₁ head head₁ needs given)
    (second : Goes params s₁ s₂ head₁ head₂ wants gives) (progress : Progress s₁ s₂)
    (ready : ∀ frame frame₁, frame.Later params frame₁ → needs frame → given frame₁ →
      wants frame₁) :
    Goes params s s₂ head head₂ needs gives := by
  obtain ⟨outer, finishOuter, derivesOuter⟩ := first
  obtain ⟨inner, finishInner, derivesInner⟩ := second
  refine ⟨fun body => outer (inner body), fun body => by rw [finishInner, finishOuter],
    fun late frame body kind last serves need rest => ?_⟩
  refine derivesOuter late frame _ kind (progress.trans last) serves need
    fun frame₁ serves₁ later₁ have₁ => ?_
  refine derivesInner late frame₁ body kind last serves₁ (ready frame frame₁ later₁ need have₁)
    fun frame₂ serves₂ later₂ have₂ => ?_
  exact rest frame₂ serves₂ (later₁.trans later₂) have₂

/-- Less may be promised, and what holds of the frame at the start holds of later ones where it is
stable. -/
theorem Goes.adapt (goes : Goes params s s₁ head head₁ needs given)
    (ready : ∀ frame, wants frame → needs frame)
    (weaker : ∀ frame frame₁, frame.Later params frame₁ → wants frame → given frame₁ →
      gives frame₁) :
    Goes params s s₁ head head₁ wants gives := by
  obtain ⟨around, finish, derives⟩ := goes
  refine ⟨around, finish, fun late frame body kind last serves want rest => ?_⟩
  refine derives late frame body kind last serves (ready frame want) fun frame₁ serves₁ later held => ?_
  exact rest frame₁ serves₁ later (weaker frame frame₁ later want held)

theorem Goes.mono (goes : Goes params s s₁ head head₁ needs given)
    (weaker : ∀ frame frame₁, frame.Later params frame₁ → needs frame → given frame₁ →
      gives frame₁) :
    Goes params s s₁ head head₁ needs gives :=
  goes.adapt (fun _ need => need) weaker

/-- Statements are added to a prologue. -/
theorem Goes.add {stmts : List Stmt}
    (derives : ∀ late frame body kind, Progress s₁ late →
      frame.ServesBut params head.env s.counters late → needs frame →
      (∀ frame' : Frame, frame'.ServesBut params head.env s₁.counters late →
        frame.Later params frame' → gives frame' → Derivable frame' (.returns body kind)) →
      Derivable frame (.returns (stmts ++ body) kind)) :
    Goes params s s₁ head (head.add stmts) needs gives :=
  ⟨fun body => stmts ++ body, fun _ => Prologue.finish_add _ _ _, derives⟩

/-- A script variable is defined. -/
theorem Goes.define {name : String} {value : Expr} (made : Made s.counters s₁.counters name)
    (outside : name ∉ params) (progress : Progress s s₁)
    (values : ∀ late frame, Progress s₁ late → frame.ServesBut params head.env s.counters late →
      needs frame → Derivable frame (.expr value .datum)) :
    Goes params s s₁ head (head.add [.define name value]) needs fun frame =>
      frame.Has name .datum := by
  refine Goes.add fun late frame body kind last serves need rest => ?_
  obtain ⟨serves', later, has⟩ :=
    serves.bindNew made outside progress.counters last.counters .datum
  exact .define (serves.fresh (made.left last.counters) outside) id
    (values late frame last serves need)
    (rest _ serves' later has)

/-- Fewer names are known beforehand, since the others were made before. -/
theorem Goes.only (goes : Goes others s s₁ head head₁ needs gives)
    (included : ∀ name ∈ params, name ∈ others) (progress : Progress s s₁)
    (old : ∀ name ∈ others, name ∉ params → ∃ c₀, Made c₀ s.counters name) :
    Goes params s s₁ head head₁ needs gives := by
  obtain ⟨around, finish, derives⟩ := goes
  refine ⟨around, finish, fun late frame body kind last serves need rest => ?_⟩
  refine derives late frame body kind last (serves.more included) need
    fun frame' serves' later held => ?_
  refine rest frame' (serves'.only fun name member outside => ?_) (later.fewer included) held
  obtain ⟨c₀, made⟩ := old name member outside
  exact ⟨c₀, made.left progress.counters⟩

end Goes

section Binding

variable {W : World} {s : CompileState} {head : Head}

/-- A head in which the names are in order. -/
abbrev HeadOk (W : World) (s : CompileState) (head : Head) : Prop := EnvOk W s head.env

/-- The names among the given ones that are made between two states. -/
def Only (params : List String) (c c' : Counters) (names : List String) : Prop :=
  ∀ name ∈ params, Made c c' name → name ∈ names

theorem Only.outside {params : List String} {c c' : Counters} {name : String}
    (only : Only params c c' []) (made : Made c c' name) :
    name ∉ params :=
  fun member => List.not_mem_nil (only name member made)

theorem Only.split {params names names' : List String} {c c' c'' : Counters}
    (only : Only params c c'' (names ++ names')) (leads : c.Leads c') (leads' : c'.Leads c'')
    (made : ∀ name ∈ names, Made c c' name) (made' : ∀ name ∈ names', Made c' c'' name) :
    Only params c c' names ∧ Only params c' c'' names' := by
  refine ⟨fun name member inside => ?_, fun name member inside => ?_⟩
  · rcases List.mem_append.mp (only name member (inside.left leads')) with here | there
    · exact here
    · exact (inside.disjoint (made' name there)).elim
  · rcases List.mem_append.mp (only name member (inside.right leads)) with here | there
    · exact ((made name here).disjoint inside).elim
    · exact there

/-- After a name is made it is not made again. -/
theorem Only.apart {params : List String} {c c' c'' : Counters} {name : String}
    (only : Only params c c'' [name]) (made : Made c c' name) (leads : c.Leads c') :
    Only params c' c'' [] := by
  intro other member again
  obtain rfl := List.mem_singleton.mp (only other member (again.right leads))
  exact (made.disjoint again).elim

theorem Only.old {c₀ c c' : Counters} {name : String} (made : Made c₀ c name) :
    Only [name] c c' [] := by
  intro other member again
  obtain rfl := List.mem_singleton.mp member
  exact (made.disjoint again).elim

/-- A dynamic variable is given the value of a script variable, which is taken back at the end. -/
theorem Built.bindSpecial (ok : CompilerOk W s) (env : Environment) (prologue : Prologue)
    (var : SymbolId) (host : String) :
    Built W s (prologue.bindSpecial var (.ident host)) fun _ s' prologue' =>
      ∀ params, Only params s.counters s'.counters [] →
        Goes params s s' { env, prologue } { env, prologue := prologue' }
          (fun frame => frame.Has host .datum) fun frame => frame.Has host .datum := by
  refine Built.bind (Built.symbolLiteral ok var) fun W₁ s₁ cell first ok₁ symbol => ?_
  refine Built.bind (Built.freshVariable ok₁ "old") fun W₂ s₂ old second ok₂ made => ?_
  refine Built.gives ok₂ fun params only => ?_
  have outside : old ∉ params := only.outside (made.right first.progress.counters)
  refine ⟨fun body => [.define old (.member cell "value"),
    .effect (.assign (.member cell "value") (.ident host)),
    .guarded body .none (.always [.effect (.assign (.member cell "value") (.ident old))])],
    fun body => Prologue.finish_section prologue body _ _,
    fun late frame body kind last serves has rest => ?_⟩
  have serves₁ := serves.later first.progress.counters
  obtain ⟨serves', later, hasOld⟩ :=
    serves₁.bindNew made outside second.progress.counters last.counters .optional
  have known : ∀ {frame : Frame}, frame.ServesBut params env s₂.counters late →
      Derivable frame (.expr cell .symbol) :=
    fun serves => symbol.literal _ (serves.knowsLiterals.earlier (second.progress.trans last))
  have fresh := serves₁.fresh (made.left last.counters) outside
  have cell_symbol : Derivable frame (.expr cell .symbol) :=
    symbol.literal frame (serves.knowsLiterals.earlier (second.progress.trans last))
  have restore : ∀ e ∈ [Expr.assign (.member cell "value") (.ident old)],
      Derivable (frame.bind old .optional) (.expr e .optional) := by
    simpa using .assignSlot (Kind.Within.refl .optional) (known serves') (.ident hasOld.known)
  refine .define fresh ?_ (.slotValue cell_symbol) ?_
  · exact id
  · refine .effect (.assignSlot Kind.datum_within_optional (known serves')
      (.ident (later.has has).known)) ?_
    exact (Derivable.protect (rest _ serves' later (later.has has)) restore :)

/-- A variable is bound to the value of a script variable. -/
theorem Built.bindParameter (ok : CompilerOk W s) (env : HeadOk W s head)
    (specials : List SymbolId) (var : SymbolId) (host : String) :
    Built W s (Compiler.bindParameter specials head var host) fun W' s' head' =>
      HeadOk W' s' head' ∧ ∀ params, Only params s.counters s'.counters [] →
        Goes params s s' head head' (fun frame => frame.Has host .datum)
          fun frame => frame.Has host .datum := by
  refine Built.bind (Built.bindsSpecial ok var specials) fun W₁ s₁ special first ok₁ _ => ?_
  have bound : ∀ W₂ s₂ (prologue : Prologue), CompilerOk W₂ s₂ → Further W s W₂ s₂ →
      (∀ params, Only params s.counters s₂.counters [] →
        Goes params s s₂ head { env := head.env, prologue } (fun frame => frame.Has host .datum)
          fun frame => frame.Has host .datum) →
      Built W₂ s₂ (do
        let binding ← Compiler.variableBinding var host special
        return ({ env := binding :: head.env, prologue } : Head)) fun W' s' head' =>
        HeadOk W' s' head' ∧ ∀ params, Only params s.counters s'.counters [] →
          Goes params s s' head head' (fun frame => frame.Has host .datum)
            fun frame => frame.Has host .datum := by
    intro W₂ s₂ prologue ok₂ before goes
    refine Built.bind (Built.variableBinding ok₂ var host special)
      fun W₃ s₃ binding further ok₃ new => ?_
    refine Built.gives ok₃ ⟨fun other member => ?_, fun params only => ?_⟩
    · rcases List.mem_cons.mp member with rfl | member
      · exact new.1
      · exact (env other member).further (before.trans further)
    · obtain ⟨around, finish, derives⟩ := goes params fun name member made =>
        only name member (made.left further.progress.counters)
      refine ⟨around, finish, fun late frame body kind last serves has rest => ?_⟩
      refine derives late frame body kind (further.progress.trans last) serves has
        fun frame' serves' later has' => ?_
      exact rest frame' ((serves'.cons (new.2 late frame' has')).later further.progress.counters)
        later has'
  dsimp only
  split
  · refine Built.bind (Built.bindSpecial ok₁ head.env head.prologue var host)
      fun W₂ s₂ prologue second ok₂ goes => bound W₂ s₂ prologue ok₂ (first.trans second) ?_
    intro params only
    refine (Goes.stay first.progress (AsksNoMore.refl _) rfl fun _ has => has).trans
      (goes params fun name member made => only name member (made.right first.progress.counters))
      second.progress fun _ _ _ _ has => has
  · exact bound W₁ s₁ head.prologue ok₁ first fun params _ =>
      Goes.stay first.progress (AsksNoMore.refl _) rfl fun _ has => has

end Binding

end LispScript.Discipline
