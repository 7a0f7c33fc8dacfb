import LispScript.Proofs.Calls

/-!
Scopes of one's own: what is known where a function's body starts to run, and that it stays known
while the body runs.
-/

namespace LispScript.Discipline

open Script Machine

variable {W₀ W W' : World} {image later : Image} {frame : Frame} {b : Nat}

/-- A scope that code may add variables to: the function's own, which is later than any the world
`W₀` knows. -/
structure Own (W₀ W : World) (image : Image) (frame : Frame) (b : Nat) : Prop where
  later : W₀.scopes.length ≤ b
  layout : W.scopes[b]? = some frame.kinds
  isFunction : (image.heap.scope b).isFunction = true
  pending : ∀ name ∈ frame.pending, (image.heap.scope b).vars.contains name = true
  tokens : ∀ name manyValues token, name ∈ frame.pending →
    frame.kinds name = some (.block manyValues) →
      (image.heap.scope b).vars[name]? = some (.vector token) → W₀.vectors.length ≤ token

section Sound

variable (call : Caller) (turns : Nat)

/-- An expression gives a value of a kind wherever its frame holds. -/
def ExprSound (frame : Frame) (code : Expr) (kind : Kind) : Prop :=
  ∀ W image b, W.Describes image → W.Admits frame b →
    Gives W image (evalExpr call turns b code) kind

/-- Statements end well in a scope of their own that their frame describes. -/
def BlockSound (frame : Frame) (code : List Stmt) (good : Nat → World → Flow → Prop) : Prop :=
  ∀ W₀ W image b, W₀.Extends W → W.Describes image → Own W₀ W image frame b →
    Ends W₀ W image (good b) (execBlock call turns b code image)

/-- Statements return a value of a kind in a scope of their own that their frame describes. -/
abbrev StmtSound (frame : Frame) (code : List Stmt) (kind : Kind) : Prop :=
  BlockSound call turns frame code fun _ W' flow =>
    ∃ value, flow = .returned value ∧ W'.Has kind value

end Sound

section Own

theorem Own.admits (own : Own W₀ W image frame b) : W.Admits frame b :=
  ⟨frame.kinds, own.layout, fun _ _ known => known⟩

theorem contains_iff_exists {vars : Variables} {name : String} :
    vars.contains name = true ↔ ∃ value, vars[name]? = some value := by
  rw [Std.TreeMap.contains_eq_isSome_getElem?, Option.isSome_iff_exists]

/-- What is known of a scope of one's own stays known while expressions are evaluated in it. -/
theorem Own.follows (own : Own W₀ W image frame b) (follows : Follows W image W' later) :
    Own W₀ W' later frame b := by
  have kept := follows.leads.kept b frame.kinds own.layout
  refine ⟨own.later, prefix_getElem? follows.extends_.scopes own.layout,
    kept.isFunction.trans own.isFunction,
    fun name member => kept.names name (own.pending name member),
    fun name manyValues token member known found => ?_⟩
  obtain ⟨value, held⟩ := contains_iff_exists.mp (own.pending name member)
  have still := (kept.fixed name (.block manyValues) known trivial).trans held
  rw [found] at still
  obtain rfl := Option.some.inj still
  exact own.tokens name manyValues token member known held

theorem World.Admits.weaken {wider : Frame} (admits : W.Admits wider b)
    (included : ∀ name kind, frame.kinds name = some kind → wider.kinds name = some kind) :
    W.Admits frame b := by
  obtain ⟨layout, found, known⟩ := admits
  exact ⟨layout, found, fun name kind listed => known name kind (included name kind listed)⟩

theorem World.Admits.lt (admits : W.Admits frame b) : b < W.scopes.length := by
  obtain ⟨layout, found, -⟩ := admits
  exact (List.getElem?_eq_some_iff.mp found).1

/-- A new scope inside one where a frame holds. Its own variables hide those of the same name. -/
theorem World.Admits.scopeOk (admits : W.Admits frame b) {layout : Layout} {vars : Variables}
    {isFunction : Bool} {n : Nat} (lower : b < n)
    (found : ∀ name kind, layout name = some kind →
      (∃ value, vars[name]? = some value ∧ W.Has kind value ∧ ¬ kind.IsToken) ∨
        vars[name]? = none ∧ frame.kinds name = some kind)
    (acceptor : ∀ value, vars["values"]? = some value →
      ∃ manyValues, value = acceptorValue manyValues)
    (hidden : ∀ name value, vars[name]? = some value → layout name = none →
      name ∉ reservedNames → W.Has .optional value) :
    W.ScopeOk W.scopes n layout ⟨vars, some b, isFunction⟩ := by
  obtain ⟨outer, foundOuter, included⟩ := admits
  refine ⟨fun name kind listed => ?_, acceptor, fun name held value listed isToken bound => ?_,
    hidden⟩
  · rcases found name kind listed with ⟨value, bound, has, -⟩ | ⟨absent, known⟩
    · exact .inl ⟨value, bound, has⟩
    · exact .inr ⟨absent, b, outer, rfl, lower, foundOuter, included name kind known⟩
  · rcases found name held listed with ⟨-, -, -, plain⟩ | ⟨absent, -⟩
    · exact absurd isToken plain
    · change vars[name]? = some value at bound
      rw [absent] at bound
      contradiction

end Own

section Parameters

variable {params : List String} {args : List Value} {vars : Variables} {name : String}

theorem parameterVariables_of_notMem (absent : name ∉ params) :
    (parameterVariables params args vars)[name]? = vars[name]? := by
  induction params generalizing args vars with
  | nil => rfl
  | cons param params ih =>
      obtain ⟨different, absentRest⟩ := not_or.mp (List.mem_cons.not.mp absent)
      rw [parameterVariables, ih absentRest, Std.TreeMap.getElem?_insert, if_neg]
      rw [Std.LawfulEqCmp.compare_eq_iff_eq]
      exact Ne.symm different

theorem parameterVariables_getElem (distinct : params.Nodup) {i : Nat}
    (found : params[i]? = some name) :
    (parameterVariables params args vars)[name]? = some (argument args i) := by
  induction params generalizing args vars i with
  | nil => simp at found
  | cons param params ih =>
      obtain ⟨absent, distinctRest⟩ := List.nodup_cons.mp distinct
      cases i with
      | zero =>
          obtain rfl : param = name := by simpa using found
          rw [parameterVariables, parameterVariables_of_notMem absent]
          simp [argument, List.headD_eq_head?_getD, List.head?_eq_getElem?]
      | succ i =>
          rw [parameterVariables, ih distinctRest (by simpa using found)]
          simp [argument]

theorem parameterVariables_contains (distinct : params.Nodup) (member : name ∈ params) :
    (parameterVariables params args vars).contains name = true := by
  obtain ⟨i, found⟩ := List.mem_iff_getElem?.mp member
  exact contains_iff_exists.mpr ⟨_, parameterVariables_getElem distinct found⟩

end Parameters

section Activations

variable {call : Caller} {turns : Nat} {params : List String} {args : List Value}
  {code : List Stmt} {kind : Kind}

/-- The variables that an activation starts with. -/
def activationVariables (params : List String) (args : List Value) (vector : Value) : Variables :=
  (parameterVariables params args {}).insert "arguments" vector

theorem activationVariables_arguments (vector : Value) :
    (activationVariables params args vector)["arguments"]? = some vector := by
  simp [activationVariables]

theorem activationVariables_of_ne {name : String} (different : name ≠ "arguments")
    (vector : Value) :
    (activationVariables params args vector)[name]? =
      (parameterVariables params args {})[name]? := by
  rw [activationVariables, Std.TreeMap.getElem?_insert, if_neg]
  rw [Std.LawfulEqCmp.compare_eq_iff_eq]
  exact Ne.symm different

theorem activationVariables_of_notMem {name : String} (different : name ≠ "arguments")
    (absent : name ∉ params) (vector : Value) :
    (activationVariables params args vector)[name]? = none := by
  rw [activationVariables_of_ne different, parameterVariables_of_notMem absent]
  simp

/-- The value of a call whose body returns. -/
theorem Ends.resultOf {flow : Run Flow}
    (ends : Ends W₀ W image (fun W' flow => ∃ value, flow = .returned value ∧ W'.Has kind value)
      (flow image)) :
    Ends W₀ W image (fun W' => W'.Has kind) ((flow >>= Machine.resultOf) image) := by
  refine ends.bind fun W' later flow extends_ leads describes held => ?_
  obtain ⟨value, rfl, has⟩ := held
  exact Ends.since (Safe.gives describes has) extends_

/-- What a body relies on holds of the variables that an activation starts with. The vector of its
arguments is in the given role. -/
structure Begins (W : World) (frame inner : Frame) (params : List String) (args : List Value)
    (role : Role) : Prop where
  fits : W.Fits args.toArray role
  found : ∀ vector, (W.addVector role).IsVector role vector →
    ∀ name kind, inner.kinds name = some kind →
      (∃ value, (activationVariables params args vector)[name]? = some value ∧
        (W.addVector role).Has kind value ∧ ¬ kind.IsToken) ∨
      (activationVariables params args vector)[name]? = none ∧ frame.kinds name = some kind
  acceptor : ∀ vector value, (activationVariables params args vector)["values"]? = some value →
    ∃ manyValues, value = acceptorValue manyValues
  hidden : ∀ name value vector,
    (activationVariables params args vector)[name]? = some value → inner.kinds name = none →
      name ∉ reservedNames → W.Has .optional value
  pending : ∀ name ∈ inner.pending, ∀ vector,
    (activationVariables params args vector).contains name = true
  plain : ∀ name ∈ inner.pending, ∀ kind, inner.kinds name = some kind → ¬ kind.IsToken

/-- The scope of an activation is its own. -/
theorem Begins.own {inner : Frame} {role : Role} (begins : Begins W frame inner params args role)
    (describes : W.Describes image) (admits : W.Admits frame b) :
    let later : Image := { image with heap := ((image.heap.allocVector args.toArray).2.allocScope
      ⟨activationVariables params args (.vector image.heap.vectors.size), some b, true⟩).2 }
    ∃ W' : World, Follows W image W' later ∧ W'.transfers = W.transfers ∧ W'.Describes later ∧
      Own W W' later inner image.heap.scopes.size := by
  -- The vector of the arguments comes first, then the scope that refers to it.
  have describesVector := describes.allocVector begins.fits
  have isVector := describes.addVector_self role
  have admitsVector : (W.addVector role).Admits frame b := admits
  let scope : Scope := ⟨activationVariables params args (.vector image.heap.vectors.size), some b,
    true⟩
  have ok : (W.addVector role).ScopeOk (W.addVector role).scopes (W.addVector role).scopes.length
      inner.kinds scope :=
    admitsVector.scopeOk admits.lt (begins.found _ isVector) (begins.acceptor _)
      fun name value held unlisted free =>
        (W.extends_addVector role).grows.has (begins.hidden name value _ held unlisted free)
  have followsVector : Follows W image (W.addVector role)
      { image with heap := (image.heap.allocVector args.toArray).2 } :=
    Follows.stay (W.extends_addVector role) rfl rfl
  have followsScope := followsVector.trans
    (Follows.allocScope describesVector inner.kinds scope)
  have opened : (image.heap.scopes.push scope).getD image.heap.scopes.size default = scope := by
    rw [getD_push, if_pos rfl]
  refine ⟨_, followsScope, rfl, describesVector.allocScope ok, Nat.le_of_eq describes.scopeCount,
    ?_, ?_, fun name member => ?_, fun name manyValues token member known _ => ?_⟩
  · simp [World.addVector, ← describes.scopeCount]
  · exact (congrArg Scope.isFunction opened).trans rfl
  · exact (congrArg (fun scope : Scope => scope.vars.contains name) opened).trans
      (begins.pending name member _)
  · exact absurd trivial (begins.plain name member _ known)

/-- A call whose arguments are so many that they are not counted ends; any other runs in a new
scope. -/
theorem Safe.activation {inner : Frame} {role : Role} (describes : W.Describes image)
    (admits : W.Admits frame b)
    (begins : args.length < Number.exactLimit → Begins W frame inner params args role)
    (body : args.length < Number.exactLimit → StmtSound call turns inner code kind) :
    Gives W image (do
      let inner ← openActivation b params args
      resultOf (← execBlock call turns inner code)) kind := by
  unfold openActivation
  by_cases ample : ampleArguments ≤ args.length
  · simp only [if_pos ample]
    exact .outOfSteps W (World.Extends.refl W) (Leads.refl W image) describes
  · have short : args.length < Number.exactLimit := Nat.lt_of_not_le ample
    simp only [if_neg ample]
    obtain ⟨W', follows, same, described, own⟩ := (begins short).own describes admits
    exact Ends.step follows.leads same
      (Ends.resultOf (body short W W' _ _ follows.extends_ described own))

theorem arguments_fits (manyValues : Bool) {data : List Value} (isData : W.Data data)
    (short : data.length + 1 < Number.exactLimit) :
    W.Fits (acceptorValue manyValues :: data).toArray (.arguments (data.length + 1)) := by
  refine ⟨⟨by simp, by omega, short⟩, fun i item positive found => ?_⟩
  cases i with
  | zero => omega
  | succ i => exact isData item (List.mem_of_getElem? (by simpa using found))

theorem enter_params {hosts : List String} (canEnter : frame.CanEnter hosts) :
    ("values" :: hosts).Nodup ∧ "arguments" ∉ "values" :: hosts := by
  have unreserved := fun host member => (canEnter.2 host member).2
  refine ⟨List.nodup_cons.mpr ⟨fun member => ?_, canEnter.1⟩, fun member => ?_⟩
  · exact unreserved "values" member (by decide)
  · rcases List.mem_cons.mp member with same | inside
    · contradiction
    · exact unreserved "arguments" inside (by decide)

/-- What the body of a function knows of its variables holds where it is entered. -/
theorem enter_found {hosts : List String} (canEnter : frame.CanEnter hosts) (manyValues : Bool)
    {data : List Value} (isData : W.Data data) {vector : Value}
    (isVector : W.IsVector (.arguments (data.length + 1)) vector) {name : String} {kind : Kind}
    (known : (frame.enter manyValues (data.length + 1) hosts).kinds name = some kind) :
    let vars := activationVariables ("values" :: hosts) (acceptorValue manyValues :: data) vector
    (∃ value, vars[name]? = some value ∧ W.Has kind value ∧ ¬ kind.IsToken) ∨
      vars[name]? = none ∧ frame.kinds name = some kind := by
  obtain ⟨distinct, absent⟩ := enter_params canEnter
  simp only [Frame.enter, Frame.pend, Frame.bindAll, Frame.bind, Frame.inside, Layout.bind,
    Nat.add_sub_cancel] at known
  by_cases host : name ∈ hosts.take data.length
  · rw [if_pos host, Option.some.injEq] at known
    subst known
    obtain ⟨i, found⟩ := List.mem_iff_getElem?.mp host
    have bound : i < data.length := by
      have short := (List.getElem?_eq_some_iff.mp found).1
      rw [List.length_take] at short
      omega
    rw [List.getElem?_take_of_lt bound] at found
    have ne : name ≠ "arguments" := fun same =>
      absent (same ▸ List.mem_cons_of_mem _ (List.mem_of_mem_take host))
    refine .inl ⟨argument data i, ?_, ?_, fun same => by cases same⟩
    · have position : ("values" :: hosts)[i + 1]? = some name := by simpa using found
      rw [activationVariables_of_ne ne, parameterVariables_getElem distinct position]
      simp [argument]
    · rw [argument, List.getElem?_eq_getElem bound, Option.getD_some]
      exact isData _ (List.getElem_mem bound)
  · rw [if_neg host] at known
    by_cases arguments : name = "arguments"
    · rw [if_pos arguments, Option.some.injEq] at known
      subst known arguments
      exact .inl ⟨vector, activationVariables_arguments vector, isVector, fun same => by cases same⟩
    · rw [if_neg arguments] at known
      have variable_eq : (activationVariables ("values" :: hosts)
          (acceptorValue manyValues :: data) vector)[name]? =
            (parameterVariables ("values" :: hosts) (acceptorValue manyValues :: data) {})[name]? :=
        activationVariables_of_ne arguments vector
      by_cases values : name = "values"
      · rw [if_pos values, Option.some.injEq] at known
        subst known values
        refine .inl ⟨acceptorValue manyValues, ?_, rfl, fun same => by cases same⟩
        rw [variable_eq, parameterVariables_getElem distinct (i := 0) rfl]
        rfl
      · rw [if_neg values, if_neg arguments] at known
        refine .inr ⟨activationVariables_of_notMem arguments (fun member => ?_) vector, known⟩
        rcases List.mem_cons.mp member with same | inside
        · exact values same
        · have fresh := (canEnter.2 name inside).1
          rw [known] at fresh
          contradiction

/-- A function's body is entered with an acceptor and the language's values. -/
theorem Begins.enter {hosts : List String} {data : List Value} (canEnter : frame.CanEnter hosts)
    (manyValues : Bool) (isData : W.Data data) (short : data.length + 1 < Number.exactLimit) :
    Begins W frame (frame.enter manyValues (data.length + 1) hosts) ("values" :: hosts)
      (acceptorValue manyValues :: data) (.arguments (data.length + 1)) := by
  obtain ⟨distinct, absent⟩ := enter_params canEnter
  have isDataLater : ∀ role, (W.addVector role).Data data := fun role item member =>
    (W.extends_addVector role).grows.datum (isData item member)
  refine ⟨arguments_fits manyValues isData short, ?_, ?_, ?_, ?_, ?_⟩
  · intro vector isVector name kind known
    exact enter_found canEnter manyValues (isDataLater _) isVector known
  · intro vector value found
    rw [activationVariables_of_ne (by decide),
      parameterVariables_getElem distinct (i := 0) rfl] at found
    exact ⟨manyValues, (Option.some.inj found).symm⟩
  · intro name value vector found _ free
    have ne : name ≠ "arguments" := by
      rintro rfl
      exact free (by decide)
    have ne_values : name ≠ "values" := by
      rintro rfl
      exact free (by decide)
    rw [activationVariables_of_ne ne] at found
    by_cases member : name ∈ hosts
    · obtain ⟨i, position⟩ := List.mem_iff_getElem?.mp member
      have later : ("values" :: hosts)[i + 1]? = some name := by simpa using position
      rw [parameterVariables_getElem distinct later] at found
      obtain rfl := Option.some.inj found
      exact argument_datum isData i
    · rw [parameterVariables_of_notMem (by simp [ne_values, member])] at found
      simp at found
  · intro name pending vector
    have host : name ∈ hosts := by
      simpa [Frame.enter, Frame.pend, Frame.bindAll, Frame.bind, Frame.inside] using pending
    have ne : name ≠ "arguments" := fun same => absent (same ▸ List.mem_cons_of_mem _ host)
    obtain ⟨value, found⟩ : ∃ value, (parameterVariables ("values" :: hosts)
        (acceptorValue manyValues :: data) {})[name]? = some value :=
      contains_iff_exists.mp
        (parameterVariables_contains distinct (List.mem_cons_of_mem _ host))
    exact contains_iff_exists.mpr ⟨value, (activationVariables_of_ne ne vector).trans found⟩
  · intro name pending kind known
    have host : name ∈ hosts := by
      simpa [Frame.enter, Frame.pend, Frame.bindAll, Frame.bind, Frame.inside] using pending
    have fresh := canEnter.2 name host
    simp only [Frame.enter, Frame.pend, Frame.bindAll, Frame.bind, Frame.inside,
      Layout.bind] at known
    split at known
    · obtain rfl := Option.some.inj known
      nofun
    · split at known
      · obtain rfl := Option.some.inj known
        nofun
      · split at known
        · obtain rfl := Option.some.inj known
          nofun
        · rw [fresh.1] at known
          contradiction

/-- A call of a function's code with an acceptor and the language's values. -/
theorem Safe.enter {hosts : List String} {manyValues : Bool} {data : List Value}
    (describes : W.Describes image) (admits : W.Admits frame b)
    (canEnter : frame.CanEnter hosts) (isData : W.Data data)
    (body : ∀ count, 1 ≤ count → count < Number.exactLimit →
      StmtSound call turns (frame.enter manyValues count hosts) code (.result manyValues)) :
    Gives W image (do
      let inner ← openActivation b ("values" :: hosts) (acceptorValue manyValues :: data)
      resultOf (← execBlock call turns inner code)) (.result manyValues) :=
  Safe.activation describes admits (fun short => .enter canEnter manyValues isData short)
    fun short => body (data.length + 1) (by omega) short

/-- A scope without parameters has no variable but the arguments. -/
theorem wrap_hidden {name : String} {value vector : Value} {unlisted : Prop}
    (found : (activationVariables [] [] vector)[name]? = some value) (_ : unlisted)
    (free : name ∉ reservedNames) :
    W.Has .optional value := by
  have ne : name ≠ "arguments" := by
    rintro rfl
    exact free (by decide)
  rw [activationVariables_of_notMem ne List.not_mem_nil] at found
  contradiction

theorem Begins.inside (W : World) (frame : Frame) : Begins W frame frame.inside [] [] .other := by
  refine ⟨trivial, ?_, ?_, fun name value vector => wrap_hidden,
    fun _ member => absurd member List.not_mem_nil, fun _ member => absurd member List.not_mem_nil⟩
  · intro vector _ name kind known
    simp only [Frame.inside] at known
    split at known
    · contradiction
    · rename_i ne
      exact .inr ⟨activationVariables_of_notMem ne List.not_mem_nil vector, known⟩
  · intro vector value found
    rw [activationVariables_of_notMem (by decide) List.not_mem_nil] at found
    contradiction

/-- A function literal without parameters, called where it stands. -/
theorem ExprSound.wrap (body : StmtSound call turns frame.inside code kind) :
    ExprSound call turns frame (.wrap code) kind := by
  intro W image b describes admits
  change Gives W image (evalExpr call turns b (.call (.function [] code) [])) kind
  simp only [evalExpr, evalList, pure_bind]
  exact Safe.activation describes admits (fun _ => .inside W frame) fun _ => body

/-- What one parameter holds is known where the body of a function literal is entered. -/
theorem Begins.inPlace {name : String} {held : Kind} {first : Value} (frame : Frame)
    (name_ne : name ≠ "arguments") (plain : ¬ held.IsToken)
    (values : name = "values" → ∃ manyValues, held = .acceptor manyValues)
    (has : W.Has held first) :
    Begins W frame (frame.inside.bind name held) [name] [first] .other := by
  refine ⟨trivial, ?_, ?_, ?_, fun _ member => absurd member List.not_mem_nil,
    fun _ member => absurd member List.not_mem_nil⟩
  · intro vector _ known kind listed
    simp only [Frame.inside, Frame.bind, Layout.bind] at listed
    by_cases same : known = name
    · rw [if_pos same, Option.some.injEq] at listed
      subst listed same
      refine .inl ⟨first, ?_, (W.extends_addVector _).grows.has has, plain⟩
      rw [activationVariables_of_ne name_ne]
      exact parameterVariables_getElem (by simp) (i := 0) rfl
    · rw [if_neg same] at listed
      split at listed
      · contradiction
      · rename_i ne
        exact .inr ⟨activationVariables_of_notMem ne (by simpa using same) vector, listed⟩
  · intro vector bound found
    by_cases same : name = "values"
    · obtain ⟨manyValues, rfl⟩ := values same
      subst same
      rw [activationVariables_of_ne (by decide),
        parameterVariables_getElem (by simp) (i := 0) rfl] at found
      exact ⟨manyValues, (Option.some.inj found).symm.trans has⟩
    · rw [activationVariables_of_notMem (by decide) (by simpa using Ne.symm same)] at found
      contradiction
  · intro other value vector found unlisted free
    have ne : other ≠ "arguments" := by
      rintro rfl
      exact free (by decide)
    simp only [Frame.inside, Frame.bind, Layout.bind] at unlisted
    by_cases same : other = name
    · rw [if_pos same] at unlisted
      contradiction
    · rw [activationVariables_of_notMem ne (by simpa using same)] at found
      contradiction

/-- A function literal with one parameter, called where it stands. -/
theorem ExprSound.inPlace {name : String} {held : Kind} {e : Expr} (name_ne : name ≠ "arguments")
    (plain : ¬ held.IsToken)
    (values : name = "values" → ∃ manyValues, held = .acceptor manyValues)
    (value : ExprSound call turns frame e held)
    (body : StmtSound call turns (frame.inside.bind name held) code kind) :
    ExprSound call turns frame (.inPlace [name] [e] code) kind := by
  intro W image b describes admits
  change Gives W image (evalExpr call turns b (.call (.function [name] code) [e])) kind
  simp only [evalExpr, evalList, pure_bind, bind_assoc]
  refine (value W image b describes admits).bind fun W₁ image₁ first follows described has => ?_
  exact Safe.activation described (follows.leads.admits admits)
    (fun _ => .inPlace frame name_ne plain values has) fun _ => body

end Activations

end LispScript.Discipline
