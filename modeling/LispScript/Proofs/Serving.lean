import LispScript.Proofs.Resolution

/-!
Frames that serve an environment: they know every script variable that the names of the environment
can come to be compiled to, and no name that is still to be made. Code is compiled once and for all
for the frames that serve the environment where its form stands.
-/

namespace LispScript.Discipline

open Script Compiler

/-- A variable that is known and that no scope hides on its own account. -/
structure Frame.Has (frame : Frame) (name : String) (kind : Kind) : Prop where
  unreserved : name ∉ reservedNames
  known : frame.kinds name = some kind

/-- What a binding asks of the frames that its name is compiled for. The tokens of blocks and
tagbodies are there only if some form makes use of them before all is compiled. -/
def Asks (late : CompileState) (frame : Frame) (binding : Binding) : Prop :=
  match binding.reference with
  | .host name => frame.Has name .datum
  | .block token manyValues => binding.space = .blocks →
      (late.bindings.declared binding).used = true → frame.Has token (.block manyValues)
  | .tag token _ => binding.space = .tags →
      (late.bindings.declared binding).used = true → frame.Has token .tagbody
  | _ => True

/-- The frame serves an environment, and knows no name that is made between the counters and the late
state, but for the given parameters. -/
structure Frame.ServesBut (params : List String) (frame : Frame) (env : Environment) (c : Counters)
    (late : CompileState) : Prop where
  unmade : ∀ name, Made c late.counters name → name ∉ params → frame.kinds name = none
  bindings : ∀ binding ∈ env, Asks late frame binding
  literals : ∀ name value, Stmt.define name value ∈ late.literals.initializers.toList →
    frame.Has name (madeKind value)

abbrev Frame.Serves (frame : Frame) (env : Environment) (c : Counters) (late : CompileState) : Prop :=
  frame.ServesBut [] env c late

/-- What holds of all frames that serve an environment, of code compiled between two states. -/
def Everywhere (env : Environment) (s s' : CompileState) (P : Frame → Prop) : Prop :=
  ∀ late frame, Progress s' late → frame.Serves env s.counters late → P frame

/-- Code with a value of a kind. -/
abbrev Codes (env : Environment) (s s' : CompileState) (code : Expr) (kind : Kind) : Prop :=
  Everywhere env s s' fun frame => Derivable frame (.expr code kind)

/-- Code that delivers its values where the context wants them. -/
abbrev Compiles (context : Context) (s s' : CompileState) (code : Expr) : Prop :=
  Everywhere context.env s s' fun frame => ∀ manyValues, frame.Accepts context.acceptor manyValues →
    Derivable frame (.expr code (.result manyValues))

/-- Forms are compiled to code that runs wherever the environment is served. -/
def CompilesForms (compile : FormCompiler) : Prop :=
  ∀ W s context form, CompilerOk W s → EnvOk W s context.env → W.Datum form →
    Built W s (compile context form) fun _ s' code => Compiles context s s' code

section Frames

variable {frame frame' : Frame} {params : List String} {env : Environment} {c c' : Counters}
  {late : CompileState} {name : String} {kind : Kind}

theorem Frame.Has.mono {other : String} {held : Kind} (has : frame.Has other held)
    (kept : frame'.kinds other = frame.kinds other) :
    frame'.Has other held :=
  ⟨has.unreserved, kept.trans has.known⟩

theorem Frame.Has.inside (has : frame.Has name kind) : frame.inside.Has name kind := by
  refine has.mono (if_neg ?_)
  rintro rfl
  exact has.unreserved (by decide)

theorem Asks.mono {binding : Binding} (asks : Asks late frame binding)
    (kept : ∀ name kind, frame.Has name kind → frame'.Has name kind) :
    Asks late frame' binding := by
  unfold Asks at asks ⊢
  split at asks
  · exact kept _ _ asks
  · exact fun space used => kept _ _ (asks space used)
  · exact fun space used => kept _ _ (asks space used)
  · trivial

/-- Another frame with what the first one has, and no names that are still to be made. -/
theorem Frame.ServesBut.change (serves : frame.ServesBut params env c late)
    (kept : ∀ name kind, frame.Has name kind → frame'.Has name kind) {others : List String}
    (unmade : ∀ name, Made c' late.counters name → name ∉ others → frame'.kinds name = none) :
    frame'.ServesBut others env c' late :=
  ⟨unmade, fun binding member => (serves.bindings binding member).mono kept,
    fun name value member => kept _ _ (serves.literals name value member)⟩

theorem Frame.ServesBut.later (serves : frame.ServesBut params env c late) (leads : c.Leads c') :
    frame.ServesBut params env c' late :=
  serves.change (fun _ _ has => has) fun _ made => serves.unmade _ (made.right leads)

theorem Frame.ServesBut.inside (serves : frame.ServesBut params env c late) :
    frame.inside.ServesBut params env c late :=
  serves.change (fun _ _ has => has.inside) fun _ made outside => by
    simp only [Frame.inside, serves.unmade _ made outside, ite_self]

theorem Frame.ServesBut.pend (serves : frame.ServesBut params env c late) (names : List String) :
    (frame.pend names).ServesBut params env c late :=
  have kept : ∀ name kind, frame.Has name kind → (frame.pend names).Has name kind :=
    fun _ _ has => ⟨has.unreserved, has.known⟩
  serves.change kept serves.unmade

/-- A name that is made is new to the frame. -/
theorem Frame.ServesBut.fresh (serves : frame.ServesBut params env c late)
    (made : Made c late.counters name) (outside : name ∉ params) :
    frame.Fresh name :=
  ⟨serves.unmade _ made outside, made.unreserved⟩

theorem Frame.Serves.fresh (serves : frame.Serves env c late) (made : Made c late.counters name) :
    frame.Fresh name :=
  ServesBut.fresh serves made List.not_mem_nil

theorem Frame.bind_self (frame : Frame) (name : String) (kind : Kind) :
    (frame.bind name kind).kinds name = some kind :=
  Layout.bind_self _ _ _

theorem Frame.bind_of_ne (frame : Frame) {other : String} (different : other ≠ name)
    (kind : Kind) :
    (frame.bind name kind).kinds other = frame.kinds other :=
  Layout.bind_of_ne _ _ different

/-- A variable that becomes known takes no other's place. -/
theorem Frame.Has.bind {other : String} {held : Kind} (has : frame.Has other held)
    (fresh : frame.kinds name = none) (kind : Kind) :
    (frame.bind name kind).Has other held := by
  refine has.mono (frame.bind_of_ne ?_ kind)
  rintro rfl
  have known := has.known
  rw [fresh] at known
  cases known

theorem Frame.ServesBut.bind (serves : frame.ServesBut params env c late)
    (fresh : frame.kinds name = none) (leads : c.Leads c') (kind : Kind)
    (old : Made c' late.counters name → name ∈ params) :
    (frame.bind name kind).ServesBut params env c' late := by
  refine serves.change (fun _ _ has => has.bind fresh kind) fun other made outside => ?_
  rw [frame.bind_of_ne _ kind]
  · exact serves.unmade _ (made.right leads) outside
  · rintro rfl
    exact outside (old made)

/-- A variable of the scope with a new name. -/
theorem Frame.Serves.bind (serves : frame.Serves env c late) (made : Made c c' name)
    (leads : c.Leads c') (within : c'.Leads late.counters) (kind : Kind) :
    (frame.bind name kind).Serves env c' late ∧ (frame.bind name kind).Has name kind :=
  ⟨ServesBut.bind serves (serves.fresh (made.left within)).1 leads kind fun again =>
    (made.disjoint again).elim, made.unreserved, frame.bind_self name kind⟩

/-- A variable that scripts use beside the generated ones. -/
theorem Frame.ServesBut.bindReserved (serves : frame.ServesBut params env c late)
    (reserved : name ∈ reservedNames) (kind : Kind) :
    (frame.bind name kind).ServesBut params env c late := by
  refine serves.change (fun other held has => has.mono (frame.bind_of_ne ?_ kind))
    fun other made outside => ?_
  · rintro rfl
    exact has.unreserved reserved
  · rw [frame.bind_of_ne _ kind]
    · exact serves.unmade _ made outside
    · rintro rfl
      exact made.unreserved reserved

/-- Variables with new names, all of one kind. -/
theorem Frame.Serves.bindAll {names : List String} (serves : frame.Serves env c late)
    (made : ∀ name ∈ names, Made c c' name) (leads : c.Leads c')
    (within : c'.Leads late.counters) (kind : Kind) :
    (frame.bindAll names kind).Serves env c' late ∧
      ∀ name ∈ names, (frame.bindAll names kind).Has name kind := by
  have outside : ∀ other, other ∉ names → (frame.bindAll names kind).kinds other =
      frame.kinds other := fun other absent => if_neg absent
  refine ⟨ServesBut.change serves (fun other held has => has.mono (outside other ?_))
    fun other later _ => ?_, fun name member => ⟨(made name member).unreserved, if_pos member⟩⟩
  · intro member
    have none_ := (serves.fresh ((made other member).left within)).1
    rw [has.known] at none_
    cases none_
  · rw [outside other fun member => (made other member).disjoint later]
    exact serves.unmade _ (later.right leads) List.not_mem_nil

/-- More bindings, which the frame knows. -/
theorem Frame.ServesBut.cons {binding : Binding} (serves : frame.ServesBut params env c late)
    (asks : Asks late frame binding) :
    frame.ServesBut params (binding :: env) c late :=
  ⟨serves.unmade, fun other member => by
    rcases List.mem_cons.mp member with rfl | member
    · exact asks
    · exact serves.bindings other member, serves.literals⟩

/-- The frame serves the code that was compiled earlier too. -/
theorem Frame.ServesBut.earlier {s' : CompileState} (serves : frame.ServesBut params env c late)
    (progress : Progress s' late) :
    frame.ServesBut params env c s' := by
  refine ⟨fun name made => serves.unmade name (made.left progress.counters),
    fun binding member => ?_, fun name value member =>
      serves.literals name value (progress.literals _ member)⟩
  have asks := serves.bindings binding member
  unfold Asks at asks ⊢
  split at asks
  · exact asks
  · exact fun space used => asks space (progress.used _ used)
  · exact fun space used => asks space (progress.used _ used)
  · trivial

end Frames

section Everywhere

variable {env : Environment} {s s' s₁ s₂ late : CompileState} {P Q : Frame → Prop}
  {context : Context} {code : Expr} {kind wider : Kind}

/-- Code that was compiled on the way. -/
theorem Everywhere.widen (every : Everywhere env s₁ s₂ P) (before : Progress s s₁)
    (after : Progress s₂ s') :
    Everywhere env s s' P :=
  fun late frame progress serves =>
    every late frame (after.trans progress) (serves.later before.counters)

theorem Everywhere.mono (every : Everywhere env s s' P) (weaker : ∀ frame, P frame → Q frame) :
    Everywhere env s s' Q :=
  fun late frame progress serves => weaker frame (every late frame progress serves)

/-- A lone value is accepted by the routine for it. -/
theorem Frame.Accepts.primary (frame : Frame) (context : Context) :
    frame.Accepts context.single.acceptor false :=
  .inl rfl

theorem Compiles.single (compiles : Compiles context.single s s' code) :
    Codes context.env s s' code .datum :=
  compiles.mono fun frame derivable => derivable false (.primary frame context)

/-- Code whose one value is data delivers it in every context. -/
theorem Codes.compiles (codes : Codes context.env s s' code .datum) :
    Compiles context s s' code :=
  codes.mono fun _ derivable manyValues _ => .widen (Kind.datum_within_result manyValues) derivable

end Everywhere

end LispScript.Discipline

namespace LispScript

open Compiler Discipline

/-- Code that was compiled in a context between two states can run in a scope: the scope has what the
names of the environment ask for. -/
def RunsIn (context : Compiler.Context) (s s' : CompileState) (image : Image) (b : Address) :
    Prop :=
  ∃ (W : World) (late : CompileState) (frame : Frame), Progress s' late ∧
    frame.Serves context.env s.counters late ∧ W.Describes image ∧ W.Admits frame b

/-- And its values are taken there by the acceptor of the context. -/
def DeliversIn (context : Context) (s s' : CompileState) (image : Image) (b : Address) : Prop :=
  ∃ (W : World) (late : CompileState) (frame : Frame) (manyValues : Bool), Progress s' late ∧
    frame.Serves context.env s.counters late ∧ frame.Accepts context.acceptor manyValues ∧
    W.Describes image ∧ W.Admits frame b

variable {context : Context} {s s' t t' : CompileState} {image : Image} {b : Address}

end LispScript
