import LispScript.Proofs.Stability

/-!
Statements that declare variables and the ones that return: each rule of the discipline holds of what
the machine does.
-/

namespace LispScript.Discipline

open Script Machine Compiler

variable {call : Caller} {turns : Nat} {frame : Frame} {code : List Stmt} {kind held : Kind}
  {e : Expr} {name : String} {W₀ W W' : World} {image later : Image} {b : Nat} {value : Value}

section Blocks

theorem execBlock_singleton (stmt : Stmt) :
    execBlock call turns b [stmt] = exec call turns b stmt := by
  simp only [execBlock]
  funext image
  change EStateM.bind _ _ _ = _
  rw [EStateM.bind]
  cases exec call turns b stmt image with
  | ok flow later => cases flow <;> rfl
  | error interrupt later => rfl

theorem StmtSound.ret (sound : ExprSound call turns frame e kind) :
    StmtSound call turns frame [.ret e] kind := by
  intro W₀ W image b extends_ describes own
  rw [execBlock_singleton]
  simp only [exec]
  refine Safe.bindInto extends_ (sound W image b describes own.admits)
    fun W₁ later value follows described has => ?_
  exact Ends.since (Safe.gives described ⟨value, rfl, has⟩) (extends_.trans follows.extends_)

/-- A statement that ends normally and leaves scopes as they are, before others. -/
theorem Ends.afterEffect {stmt : Stmt} {good : World → Flow → Prop} (extends_ : W₀.Extends W)
    (first : Safe W image (exec call turns b stmt) fun _ flow => flow = .normal)
    (rest : ∀ W' later, Follows W image W' later → W'.Describes later →
      Ends W₀ W' later good (execBlock call turns b code later)) :
    Ends W₀ W image good (execBlock call turns b (stmt :: code) image) := by
  simp only [execBlock]
  refine Safe.bindInto extends_ first fun W' later flow follows described normal => ?_
  subst normal
  exact rest W' later follows described

theorem Safe.effect (sound : ExprSound call turns frame e kind) (describes : W.Describes image)
    (admits : W.Admits frame b) :
    Safe W image (exec call turns b (.effect e)) fun _ flow => flow = .normal := by
  simp only [exec]
  exact (sound W image b describes admits).bind fun _ _ _ _ described _ =>
    Safe.gives described rfl

theorem BlockSound.effect (sound : ExprSound call turns frame e held)
    (rest : BlockSound call turns frame code good) :
    BlockSound call turns frame (.effect e :: code) good := by
  intro W₀ W image b extends_ describes own
  refine Ends.afterEffect extends_ (Safe.effect sound describes own.admits)
    fun W' later follows described => ?_
  exact rest W₀ W' later b (extends_.trans follows.extends_) described (own.follows follows)

end Blocks

section Variables

theorem Own.bound {owed : Address → Prop} (own : Own W₀ W image frame b)
    (describes : W.DescribesBut owed image) :
    b < image.heap.scopes.size :=
  describes.scope_bound own.layout

theorem Own.functionScope {owed : Address → Prop} (own : Own W₀ W image frame b)
    (describes : W.DescribesBut owed image) :
    image.heap.functionScope b = b := by
  obtain ⟨n, size_eq⟩ : ∃ n, image.heap.scopes.size = n + 1 :=
    ⟨image.heap.scopes.size - 1, by have := own.bound describes; omega⟩
  simp [Heap.functionScope, size_eq, Heap.findScopeWithin, own.isFunction]

theorem Own.drop {names : List String} (own : Own W₀ W image (frame.pend names) b) :
    Own W₀ W image frame b :=
  ⟨own.later, own.layout, own.isFunction,
    fun name member => own.pending name (List.mem_append_right _ member),
    fun name manyValues token member =>
      own.tokens name manyValues token (List.mem_append_right _ member)⟩

/-- A variable of one's own gets a value, and a kind. -/
theorem Own.bind (own : Own W₀ W image frame b) {owed : Address → Prop}
    (describes : W.DescribesBut owed image) (extends_ : W₀.Extends W)
    (fresh : frame.kinds name = none) (has : W.Has kind value)
    (acceptor : name = "values" → ∃ manyValues, value = acceptorValue manyValues)
    (token : kind.IsToken → W.IsVector (.token kind b name) value)
    (new : ∀ address, kind.IsToken → value = .vector address → W₀.vectors.length ≤ address) :
    W₀.Extends (W.bindAt b name kind) ∧
      Leads W image (W.bindAt b name kind)
        { image with heap := image.heap.bindVariable b name value } ∧
      (W.bindAt b name kind).DescribesBut owed
        { image with heap := image.heap.bindVariable b name value } ∧
      Own W₀ (W.bindAt b name kind) { image with heap := image.heap.bindVariable b name value }
        ((frame.bind name kind).pend [name]) b := by
  have bound := describes.scope_bound own.layout
  have grows : W.Grows (W.bindAt b name kind) := World.grows_bindAt own.layout fresh
  have scope_eq := bindVariable_scope image.heap name value b bound
  rw [if_pos rfl] at scope_eq
  have found : (W.bindAt b name kind).scopes[b]? = some (Layout.bind frame.kinds name kind) := by
    rw [World.bindAt_scopes, if_pos rfl, own.layout]
    rfl
  refine ⟨extends_.bindAt name kind own.later, ?_, describes.bindFresh own.layout fresh has
    acceptor token, ⟨own.later, found, ?_, fun other member => ?_,
      fun other manyValues address member known heldValue => ?_⟩⟩
  · refine Leads.bindVariable grows bound fun layout other foundLayout listed => ?_
    rw [own.layout, Option.some.injEq] at foundLayout
    rw [← foundLayout, fresh] at listed
    contradiction
  · exact (congrArg Scope.isFunction scope_eq).trans own.isFunction
  · change (image.heap.bindVariable b name value |>.scope b).vars.contains other = true
    rw [scope_eq, Std.TreeMap.contains_insert]
    rcases List.mem_cons.mp member with rfl | inside
    · simp
    · rw [own.pending other inside, Bool.or_true]
  · change (image.heap.bindVariable b name value |>.scope b).vars[other]? = _ at heldValue
    rw [scope_eq, Std.TreeMap.getElem?_insert] at heldValue
    by_cases same : other = name
    · subst same
      rw [if_pos (Std.LawfulEqCmp.compare_eq_iff_eq.mpr rfl), Option.some.injEq] at heldValue
      change Layout.bind frame.kinds other kind other = _ at known
      rw [Layout.bind_self, Option.some.injEq] at known
      subst known
      exact new address trivial heldValue
    · rw [if_neg (fun equal => same (Std.LawfulEqCmp.compare_eq_iff_eq.mp equal).symm)] at heldValue
      change Layout.bind frame.kinds name kind other = _ at known
      rw [Layout.bind_of_ne _ _ same] at known
      have inside : other ∈ frame.pending := by
        rcases List.mem_cons.mp member with equal | inside
        · exact absurd equal same
        · exact inside
      exact own.tokens other manyValues address inside known heldValue

/-- The rest of a block after a variable of one's own got a value. -/
theorem Ends.afterBinding {good : World → Flow → Prop} (own : Own W₀ W image frame b)
    (describes : W.Describes image) (extends_ : W₀.Extends W) (fresh : frame.kinds name = none)
    (has : W.Has kind value)
    (acceptor : name = "values" → ∃ manyValues, value = acceptorValue manyValues)
    (plain : ¬ kind.IsToken)
    (rest : ∀ W' later, W₀.Extends W' → W'.Describes later →
      Own W₀ W' later ((frame.bind name kind).pend [name]) b →
        Ends W₀ W' later good (execBlock call turns b code later)) :
    Ends W₀ W image good (execBlock call turns b code
      { image with heap := image.heap.bindVariable b name value }) := by
  obtain ⟨extended, leads, described, ownLater⟩ := own.bind describes extends_ fresh has acceptor
    (fun token => absurd token plain) fun _ token => absurd token plain
  exact Ends.step leads rfl (rest _ _ extended described ownLater)

/-- A variable declared with a value, whichever kinds of variables may be hidden by it. -/
theorem Ends.afterDefine {good : World → Flow → Prop} (own : Own W₀ W image frame b)
    (describes : W.Describes image) (extends_ : W₀.Extends W) (fresh : frame.kinds name = none)
    (values : name = "values" → ∃ manyValues, kind = .acceptor manyValues)
    (plain : ¬ kind.IsToken) (sound : ExprSound call turns frame e kind)
    (rest : ∀ W' later, W₀.Extends W' → W'.Describes later →
      Own W₀ W' later ((frame.bind name kind).pend [name]) b →
        Ends W₀ W' later good (execBlock call turns b code later)) :
    Ends W₀ W image good (execBlock call turns b (.define name e :: code) image) := by
  simp only [execBlock, exec, bind_assoc]
  refine Safe.bindInto extends_ (sound W image b describes own.admits)
    fun W₁ image₁ value follows described has => ?_
  have ownLater := own.follows follows
  change Ends W₀ W₁ image₁ good (execBlock call turns b code
    { image₁ with heap := image₁.heap.bindVariable (image₁.heap.functionScope b) name value })
  rw [ownLater.functionScope described]
  refine Ends.afterBinding ownLater described (extends_.trans follows.extends_) fresh has
    (fun same => ?_) plain rest
  obtain ⟨manyValues, rfl⟩ := values same
  exact ⟨manyValues, has⟩

theorem Frame.Fresh.ne_values (fresh : frame.Fresh name) : name ≠ "values" := by
  rintro rfl
  exact fresh.2 (by decide)

theorem BlockSound.define (fresh : frame.Fresh name) (plain : ¬ held.IsToken)
    (sound : ExprSound call turns frame e held)
    (rest : BlockSound call turns (frame.bind name held) code good) :
    BlockSound call turns frame (.define name e :: code) good := by
  intro W₀ W image b extends_ describes own
  exact Ends.afterDefine own describes extends_ fresh.1 (fun same => absurd same fresh.ne_values)
    plain sound fun W' later extended described ownLater =>
      rest W₀ W' later b extended described ownLater.drop

/-- A variable that is there has a value or is pending. -/
theorem Own.pend (own : Own W₀ W image frame b) (fresh : frame.kinds name = none)
    (contains : (image.heap.scope b).vars.contains name = true) :
    Own W₀ W image (frame.pend [name]) b := by
  refine ⟨own.later, own.layout, own.isFunction, fun other member => ?_,
    fun other manyValues token member known found => ?_⟩
  · rcases List.mem_cons.mp member with rfl | inside
    · exact contains
    · exact own.pending other inside
  · rcases List.mem_cons.mp member with rfl | inside
    · exact absurd (fresh.symm.trans known) nofun
    · exact own.tokens other manyValues token inside known found

/-- A variable of one's own for the identity of an activation. -/
theorem Own.bindToken (own : Own W₀ W image frame b) (describes : W.Describes image) (extends_ : W₀.Extends W)
    (fresh : frame.Fresh name) (token : held.IsToken) :
    let later : Image := { image with
      heap := (image.heap.allocVector #[]).2.bindVariable b name (.vector image.heap.vectors.size) }
    ∃ W' : World, W₀.Extends W' ∧ Leads W image W' later ∧ W'.transfers = W.transfers ∧
      W'.Describes later ∧ Own W₀ W' later ((frame.bind name held).pend [name]) b ∧
      W'.IsVector (.token held b name) (.vector image.heap.vectors.size) := by
  have fits : W.Fits #[] (.token held b name) := trivial
  have described := describes.allocVector fits
  have isVector := describes.addVector_self (.token held b name)
  have extended := W.extends_addVector (.token held b name)
  have follows : Follows W image (W.addVector (.token held b name))
      { image with heap := (image.heap.allocVector #[]).2 } := Follows.stay extended rfl rfl
  have ownVector := own.follows follows
  have new : ∀ address, held.IsToken → Value.vector image.heap.vectors.size = .vector address →
      W₀.vectors.length ≤ address := by
    intro address _ same
    obtain rfl : image.heap.vectors.size = address := by simpa using same
    rw [← describes.vectorCount]
    exact extends_.vectors.length_le
  have has : (W.addVector (.token held b name)).Has held (.vector image.heap.vectors.size) := by
    cases held with
    | block manyValues => exact ⟨b, name, isVector⟩
    | tagbody => exact ⟨b, name, isVector⟩
    | _ => exact absurd token id
  obtain ⟨extendedBind, leads, describedBind, ownBind⟩ := ownVector.bind described
    (extends_.trans extended) fresh.1 has (fun same => absurd same fresh.ne_values)
    (fun _ => isVector) new
  exact ⟨_, extendedBind, follows.leads.trans leads, rfl, describedBind, ownBind, isVector⟩

theorem BlockSound.defineToken (fresh : frame.Fresh name) (token : held.IsToken)
    (rest : BlockSound call turns ((frame.bind name held).pend [name]) code good) :
    BlockSound call turns frame (.define name (.array []) :: code) good := by
  intro W₀ W image b extends_ describes own
  simp only [execBlock, exec, evalExpr, evalList, pure_bind, bind_assoc]
  have fits : W.Fits #[] (.token held b name) := trivial
  have stays : Follows W image (W.addVector (.token held b name))
      { image with heap := (image.heap.allocVector #[]).2 } :=
    Follows.stay (W.extends_addVector _) rfl rfl
  have place := (own.follows stays).functionScope (describes.allocVector fits)
  obtain ⟨W', extended, leads, same, described, ownLater, -⟩ :=
    own.bindToken describes extends_ fresh token
  change Ends W₀ W image _ (execBlock call turns b code { image with
    heap := (image.heap.allocVector #[]).2.bindVariable
      ((image.heap.allocVector #[]).2.functionScope b) name (.vector image.heap.vectors.size) })
  rw [place]
  exact Ends.step leads same (rest W₀ W' _ b extended described ownLater)

/-- An assignment to a variable that is there without having a kind changes no more than its
value. -/
theorem Own.assignHidden (own : Own W₀ W image frame b) (describes : W.Describes image)
    (fresh : frame.Fresh name) (optional : W.Has .optional value) :
    Follows W image W { image with heap := image.heap.bindVariable b name value } ∧
      W.Describes { image with heap := image.heap.bindVariable b name value } := by
  refine ⟨⟨World.Extends.refl W, Leads.bindVariable (World.Grows.refl W)
    (own.bound describes) fun layout kind found listed => ?_⟩,
    describes.assign own.layout (fun kind listed => ?_) (fun same => absurd same fresh.ne_values)
      (fun kind listed => ?_) fun _ _ => optional⟩
  · rw [own.layout, Option.some.injEq] at found
    rw [← found, fresh.1] at listed
    contradiction
  · rw [fresh.1] at listed
    contradiction
  · rw [fresh.1] at listed
    contradiction

/-- A variable is declared. -/
theorem Own.declare (own : Own W₀ W image frame b) (describes : W.Describes image)
    (fresh : frame.Fresh name) :
    let later : Image := { image with heap := image.heap.declareVariable b name }
    Leads W image W later ∧ W.Describes later ∧ Own W₀ W later (frame.pend [name]) b := by
  rw [Heap.declareVariable, own.functionScope describes]
  split
  · rename_i contains
    exact ⟨.refl W image, describes, own.pend fresh.1 contains⟩
  · obtain ⟨follows, described⟩ := own.assignHidden describes fresh (.inr rfl)
    refine ⟨follows.leads, described, (own.follows follows).pend fresh.1 ?_⟩
    have scope_eq := bindVariable_scope image.heap name .undefined b (own.bound describes)
    rw [if_pos rfl] at scope_eq
    change (image.heap.bindVariable b name .undefined |>.scope b).vars.contains name = true
    rw [scope_eq, Std.TreeMap.contains_insert]
    simp

theorem BlockSound.declare (fresh : frame.Fresh name)
    (rest : BlockSound call turns (frame.pend [name]) code good) :
    BlockSound call turns frame (.declare name :: code) good := by
  intro W₀ W image b extends_ describes own
  simp only [execBlock, exec, bind_assoc, pure_bind]
  obtain ⟨leads, described, ownLater⟩ := own.declare describes fresh
  exact Ends.step leads rfl (rest W₀ W _ b extends_ described ownLater)

/-- The scope that an assignment to a variable of one's own changes. -/
theorem Own.variableScope (own : Own W₀ W image frame b) (describes : W.Describes image)
    (pending : name ∈ frame.pending) :
    image.heap.variableScope? b name = some b := by
  obtain ⟨n, size_eq⟩ : ∃ n, image.heap.scopes.size = n + 1 :=
    ⟨image.heap.scopes.size - 1, by have := own.bound describes; omega⟩
  simp [Heap.variableScope?, size_eq, Heap.findScopeWithin, own.pending name pending]

theorem BlockSound.settle (fresh : frame.Fresh name) (pending : name ∈ frame.pending)
    (sound : ExprSound call turns frame e .datum)
    (rest : BlockSound call turns (frame.bind name .datum) code good) :
    BlockSound call turns frame (assignStmt name e :: code) good := by
  intro W₀ W image b extends_ describes own
  simp only [assignStmt, assignVar, execBlock, exec, evalExpr, bind_assoc, pure_bind]
  refine Safe.bindInto extends_ (sound W image b describes own.admits)
    fun W₁ image₁ value follows described datum => ?_
  have ownLater := own.follows follows
  have assigned : assignTo call turns b value (.ident name) image₁ =
      .ok () { image₁ with heap := image₁.heap.bindVariable b name value } := by
    rw [assignTo_ident_eq, ownLater.variableScope described pending]
    rfl
  change Ends W₀ W₁ image₁ _ (EStateM.bind _ _ image₁)
  rw [EStateM.bind, assigned]
  exact Ends.afterBinding ownLater described (extends_.trans follows.extends_) fresh.1 datum
    (fun same => absurd same fresh.ne_values) id fun W' later extended described ownLast =>
      rest W₀ W' later b extended described ownLast.drop

/-- The frame without a variable. -/
def Frame.hide (frame : Frame) (name : String) : Frame :=
  { kinds := fun other => if other = name then none else frame.kinds other }

/-- A bundle is made where an acceptor of any number of values is in force. -/
theorem ExprSound.bundle
    (sound : ExprSound call turns (frame.inside.bind "values" (.acceptor true)) e .many) :
    ExprSound call turns frame (.wrap [.define "values" (.routine .packValues), .ret e])
      .many := by
  -- The acceptor of the function around is hidden from the start, so that the new one is fresh.
  have body : StmtSound call turns (frame.inside.hide "values")
      [.define "values" (.routine .packValues), .ret e] .many := by
    intro W₀ W image b extends_ describes own
    have accepts : (frame.inside.hide "values").Accepts (.routine .packValues) true := .inl rfl
    have fresh : (frame.inside.hide "values").kinds "values" = none := by simp [Frame.hide]
    refine Ends.afterDefine own describes extends_ fresh (fun _ => ⟨true, rfl⟩) id
      (.acceptor accepts) fun W' later extended described ownLater => ?_
    have soundHere : ExprSound call turns
        ((frame.inside.hide "values").bind "values" (.acceptor true)) e .many := by
      intro W'' last c describes' admits
      refine sound W'' last c describes' (admits.weaken fun other kind known => ?_)
      simp only [Frame.bind, Frame.hide, Layout.bind] at known ⊢
      split
      · simpa [*] using known
      · simpa [*] using known
    exact StmtSound.ret soundHere W₀ W' later b extended described ownLater.drop
  intro W image b describes admits
  change Gives W image (evalExpr call turns b (.call (.function [] _) [])) .many
  simp only [evalExpr, evalList, pure_bind]
  have fits : W.Fits ([] : List Value).toArray .other := trivial
  refine Safe.activation describes admits (fun _ => ⟨fits, ?_, ?_, ?_,
    fun _ member => absurd member List.not_mem_nil,
    fun _ member => absurd member List.not_mem_nil⟩) fun _ => body
  · intro vector _ name kind known
    simp only [Frame.hide, Frame.inside] at known
    split at known
    · contradiction
    · split at known
      · contradiction
      · rename_i ne
        exact .inr ⟨activationVariables_of_notMem ne List.not_mem_nil vector, known⟩
  · intro vector value found
    rw [activationVariables_of_notMem (by decide) List.not_mem_nil] at found
    contradiction
  · exact fun name value vector => wrap_hidden

end Variables

end LispScript.Discipline
