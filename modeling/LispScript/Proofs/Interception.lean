import LispScript.Proofs.Standing

/-!
Handlers at work. The code of a form that can be left early keeps what identifies the activation in a
variable of a scope of its own. Nothing in the form's body changes that variable, so the handler
still knows its activation when an exit arrives.
-/

namespace LispScript

open Script Compiler Machine Discipline

/-- The values that a result carries: those of a bundle, or else the result itself. -/
inductive Carries (heap : Heap) : Value → List Value → Prop where
  | bundle (known : heap.bundles[a]? = some values) : Carries heap (.bundle a) values
  | bare (single : ∀ a, value ≠ .bundle a) : Carries heap value [value]

/-- An image in which a variable of a scope has a value. -/
def Image.binding (image : Image) (c : Nat) (name : String) (value : Value) : Image :=
  { image with heap := image.heap.bindVariable c name value }

section Values

variable {i j : Image} {value : Value} {values : List Value}

theorem Carries.valuesOf (carries : Carries i.heap value values) : i.valuesOf value = values := by
  cases carries with
  | bundle known => simp [Image.valuesOf, Heap.bundle, Array.getD_eq_getD_getElem?, known]
  | bare single =>
      cases value with
      | bundle a => exact absurd rfl (single a)
      | _ => rfl

theorem Carries.later (carries : Carries i.heap value values) (adds : Adds i j) :
    Carries j.heap value values := by
  cases carries with
  | bundle known =>
      obtain ⟨more, same⟩ := adds.bundles
      obtain ⟨bound, -⟩ := Array.getElem?_eq_some_iff.mp known
      refine .bundle ?_
      rw [same, Array.getElem?_append_left bound, known]
  | bare single => exact .bare single

end Values

/-- Control has come to the body of a form that intercepts exits: the value that identifies the
activation was computed, and is held by a variable of the form's own scope. -/
structure Entered (steps turns b : Nat) (image : Image) (host : String) (initial : Expr)
    (target : Value) (i : Image) : Prop where
  ordered : Ordered image.heap
  bound : b < image.heap.scopes.size
  computed : ∃ later, evalExpr (callWithin (steps + 1)) turns image.heap.scopes.size initial
      (image.inside b) = .ok target later ∧
    i = later.binding image.heap.scopes.size host target

/-- The name of the variable of acceptors. -/
def acceptors (name : String) : Prop := name = "values"

/-- The names that are watched while a body runs. -/
def kept (host : String) (name : String) : Prop := name = "values" ∨ name = host

/-- What a form that intercepts exits needs of its parts: that its variable is new to them, and that
they leave acceptors alone. -/
structure Holding (host : String) (initial : Expr) (stmts : List Stmt) : Prop where
  ne_values : host ≠ "values"
  ne_signal : host ≠ "cf"
  initial : Free (kept host) initial.assigned
  assigned : Free (kept host) (Stmt.assignedAll stmts)
  declared : Free (kept host) (Stmt.declaredAll stmts)

section Interception

variable {steps turns b : Nat} {image i k : Image} {host : String} {initial : Expr}
  {stmts : List Stmt} {target : Value} {context : Context} {acceptor : Value}

theorem Entered.watched (entered : Entered steps turns b image host initial target i)
    (holding : Holding host initial stmts) :
    ∃ later, evalExpr (callWithin (steps + 1)) turns image.heap.scopes.size initial
        (image.inside b) = .ok target later ∧
      Steady (around image.heap.scopes.size (kept host)) (image.inside b) later ∧
      image.heap.scopes.size < later.heap.scopes.size ∧
      i = later.binding image.heap.scopes.size host target := by
  obtain ⟨ordered, bound, later, done, same⟩ := entered
  have inner : image.heap.scopes.size < (image.inside b).heap.scopes.size := by
    rw [inside_size]
    exact Nat.lt_succ_self _
  have steady := @evalExpr_steady (around image.heap.scopes.size (kept host)) _ turns (callWithin_steady (steps + 1)) initial
    (image.inside b) image.heap.scopes.size
    ⟨ordered.inside bound (kept host), .ofFree (.inl rfl) inner holding.initial⟩
  rw [done] at steady
  exact ⟨later, done, steady, Nat.lt_of_lt_of_le inner steady.scopes, same⟩

theorem Entered.valid (entered : Entered steps turns b image host initial target i)
    (holding : Holding host initial stmts) :
    Valid (around image.heap.scopes.size (kept host)) i := by
  obtain ⟨later, -, steady, inner, rfl⟩ := entered.watched holding
  exact steady.valid.bindVariable target inner

/-- The acceptors around the form are those from before, and the form's own scope has none. -/
theorem Entered.steady (entered : Entered steps turns b image host initial target i)
    (holding : Holding host initial stmts) :
    Steady (around image.heap.scopes.size acceptors) (image.inside b) i := by
  obtain ⟨later, -, steady, inner, rfl⟩ := entered.watched holding
  have values : Steady (around image.heap.scopes.size acceptors) (image.inside b) later :=
    steady.fewer fun d name member => member.imp id fun own => ⟨own.1, .inl own.2⟩
  refine values.trans (Steady.bindVariable values.valid target inner ?_)
  rintro (⟨-, same⟩ | ⟨-, same⟩) <;> exact holding.ne_values same

theorem Entered.inner (entered : Entered steps turns b image host initial target i)
    (holding : Holding host initial stmts) : image.heap.scopes.size < i.heap.scopes.size := by
  obtain ⟨later, -, steady, inner, rfl⟩ := entered.watched holding
  rwa [Image.binding, Heap.bindVariable, Array.size_modify]

/-- The form's variable has its value. -/
theorem Entered.holds (entered : Entered steps turns b image host initial target i)
    (holding : Holding host initial stmts) :
    Holds i.heap image.heap.scopes.size host target := by
  refine ⟨entered.inner holding, ?_⟩
  obtain ⟨later, -, steady, inner, rfl⟩ := entered.watched holding
  rw [Image.binding, bindVariable_scope _ _ _ _ inner, if_pos rfl]
  simp

/-- What the body runs in, and what it leaves as it is. -/
theorem Entered.body_steady (entered : Entered steps turns b image host initial target i)
    (holding : Holding host initial stmts) :
    Steady (around image.heap.scopes.size (kept host)) i
      (imageOf (execBlock (callWithin (steps + 1)) turns image.heap.scopes.size stmts i)) :=
  execBlock_steady (callWithin_steady (steps + 1)) stmts i image.heap.scopes.size
    ⟨entered.valid holding, .ofFree (.inl rfl) (entered.inner holding) holding.assigned⟩
    (.ofFree (.inl rfl) holding.declared)

variable {interrupt : Interrupt}

/-- However the body is left, the form's variable still has its value. -/
theorem Entered.keeps (entered : Entered steps turns b image host initial target i)
    (holding : Holding host initial stmts)
    (ended : execBlock (callWithin (steps + 1)) turns image.heap.scopes.size stmts i =
      .error interrupt k) :
    Holds k.heap image.heap.scopes.size host target := by
  have steady := entered.body_steady holding
  rw [ended] at steady
  refine ⟨Nat.lt_of_lt_of_le (entered.inner holding) steady.scopes, ?_⟩
  exact (steady.kept _ host (.inr ⟨rfl, .inr rfl⟩)).trans (entered.holds holding).held

/-- However the body is left, the handler finds the form's acceptor. -/
theorem Entered.accepts (entered : Entered steps turns b image host initial target i)
    (holding : Holding host initial stmts) (accepts : Accepts context image.heap b acceptor)
    (ended : execBlock (callWithin (steps + 1)) turns image.heap.scopes.size stmts i =
      .error interrupt k) (a : Address) :
    Accepts context (handlerImage k image.heap.scopes.size a).heap k.heap.scopes.size acceptor := by
  have first := entered.steady holding
  have second := entered.body_steady holding
  rw [ended] at second
  have steady := first.trans (second.fewer fun d name member =>
    member.imp id fun own => ⟨own.1, .inl own.2⟩)
  exact (accepts.inside entered.ordered entered.bound (show acceptors "values" from rfl)
    steady).handler steady.ordered
    (Nat.lt_of_lt_of_le (entered.inner holding) second.scopes) a

/-- What identifies the activation is computed first. -/
theorem Entered.defined (entered : Entered steps turns b image host initial target i)
    (holding : Holding host initial stmts) :
    exec (callWithin (steps + 1)) turns image.heap.scopes.size (.define host initial)
      (image.inside b) = .ok .normal i := by
  obtain ⟨later, done, steady, inner, rfl⟩ := entered.watched holding
  have host_eq := Steady.functionScope_inside entered.ordered entered.bound steady
  rw [exec, bind_of_ok done]
  change EStateM.Result.ok Flow.normal { later with
    heap := later.heap.defineVariable image.heap.scopes.size host target } = _
  rw [Heap.defineVariable, host_eq]
  rfl

theorem Entered.eval {stmt : Stmt} (entered : Entered steps turns b image host initial target i)
    (holding : Holding host initial stmts) :
    evalExpr (callWithin (steps + 1)) turns b (.wrap [.define host initial, stmt]) image =
      (exec (callWithin (steps + 1)) turns image.heap.scopes.size stmt >>= resultOf) i := by
  rw [evalExpr_wrap, execBlock, bind_assoc, bind_of_ok (entered.defined holding)]
  change (execBlock _ _ _ [stmt] >>= resultOf) _ = _
  rw [execBlock_singleton]

/-- An activation begins with a new vector that identifies it. -/
theorem Entered.begin (steps turns : Nat) (host : String) (ordered : Ordered image.heap)
    (bound : b < image.heap.scopes.size) :
    Entered steps turns b image host (.array []) (.vector (image.heap.vectors.size + 1))
      (Image.binding { image.inside b with heap := ((image.inside b).heap.allocVector #[]).2 }
        image.heap.scopes.size host (.vector (image.heap.vectors.size + 1))) := by
  have size : (image.inside b).heap.vectors.size = image.heap.vectors.size + 1 :=
    Array.size_push ..
  refine ⟨ordered, bound, _, ?_, rfl⟩
  rw [evalExpr, evalList, ← size]
  rfl

/-- The vector is there from then on. -/
theorem Entered.vector (entered : Entered steps turns b image host (.array []) target i) :
    target = .vector (image.heap.vectors.size + 1) ∧
      image.heap.vectors.size + 1 < i.heap.vectors.size := by
  obtain ⟨-, -, later, made, rfl⟩ := entered
  have size : (image.inside b).heap.vectors.size = image.heap.vectors.size + 1 :=
    Array.size_push ..
  rw [evalExpr, evalList] at made
  cases made
  refine ⟨congrArg Value.vector size, ?_⟩
  change _ < ((image.inside b).heap.vectors.push #[]).size
  rw [Array.size_push, size]
  exact Nat.lt_succ_self _

/-- The code of a form that intercepts exits. -/
def interceptor (host : String) (initial : Expr) (stmts : List Stmt) (kind : TransferKind)
    (handler : List Stmt) : Expr :=
  .wrap [.define host initial, intercept stmts kind (.ident host) handler]

variable {kind : TransferKind} {handler : List Stmt} {a : Address}

/-- A body that ends takes its form along. -/
theorem interceptor_of_ok {flow : Flow}
    (entered : Entered steps turns b image host initial target i)
    (holding : Holding host initial stmts)
    (ended : execBlock (callWithin (steps + 1)) turns image.heap.scopes.size stmts i =
      .ok flow k) :
    evalExpr (callWithin (steps + 1)) turns b (interceptor host initial stmts kind handler) image =
      resultOf flow k := by
  rw [interceptor, entered.eval holding]
  have passed : exec (callWithin (steps + 1)) turns image.heap.scopes.size
      (intercept stmts kind (.ident host) handler) i = .ok flow k := by
    rw [exec_intercept_of_not_thrown, ended]
    intro thrown later thrownEnd
    rw [ended] at thrownEnd
    cases thrownEnd
  rw [bind_of_ok passed]

theorem interceptor_of_failed
    (entered : Entered steps turns b image host initial target i)
    (holding : Holding host initial stmts)
    (ended : execBlock (callWithin (steps + 1)) turns image.heap.scopes.size stmts i =
      .error interrupt k) (failure : ∀ thrown, interrupt ≠ .thrown thrown) :
    evalExpr (callWithin (steps + 1)) turns b (interceptor host initial stmts kind handler) image =
      .error interrupt k := by
  rw [interceptor, entered.eval holding]
  have passed : exec (callWithin (steps + 1)) turns image.heap.scopes.size
      (intercept stmts kind (.ident host) handler) i = .error interrupt k := by
    rw [exec_intercept_of_not_thrown, ended]
    intro thrown later thrownEnd
    rw [ended] at thrownEnd
    cases thrownEnd
    exact failure thrown rfl
  change EStateM.bind _ _ _ = _
  rw [EStateM.bind, passed]

/-- An exit that arrives runs the form's own handler if it is meant for the activation, and goes on
unchanged if it is not. -/
theorem interceptor_of_thrown
    (entered : Entered steps turns b image host initial target i)
    (holding : Holding host initial stmts)
    (ended : execBlock (callWithin (steps + 1)) turns image.heap.scopes.size stmts i =
      .error (.thrown (.transfer a)) k) :
    evalExpr (callWithin (steps + 1)) turns b (interceptor host initial stmts kind handler) image =
      if isFor kind target (k.heap.transfer a) then
        (execBlock (callWithin (steps + 1)) turns k.heap.scopes.size handler >>= resultOf)
          (handlerImage k image.heap.scopes.size a)
      else .error (.thrown (.transfer a)) (handlerImage k image.heap.scopes.size a) := by
  have held := (entered.keeps holding ended).lookup_handlerImage holding.ne_signal a
  have caught : exec (callWithin (steps + 1)) turns image.heap.scopes.size
      (intercept stmts kind (.ident host) handler) i = _ :=
    (exec_intercept_of_thrown ended).trans (execHandler_eq held)
  rw [interceptor, entered.eval holding]
  change EStateM.bind _ _ _ = _
  rw [EStateM.bind, caught]
  by_cases meant : isFor kind target (k.heap.transfer a) = true
  · rw [if_pos meant, if_pos meant]
    rfl
  · rw [if_neg meant, if_neg meant]

/-- What is at work in the body is at work in the form, whose handler is pending around it. -/
theorem Machine.Active.interceptor {x : Run β} {j : Image} {pending : List Layer}
    (entered : Entered steps turns b image host initial target i)
    (holding : Holding host initial stmts)
    (active : Active x j (execBlock (callWithin (steps + 1)) turns image.heap.scopes.size stmts) i
      pending) :
    Active x j (evalExpr (callWithin (steps + 1)) turns b
        (LispScript.interceptor host initial stmts kind handler)) image
      (pending ++ [.exit image.heap.scopes.size kind target]) := by
  have keeps : ∀ a k, execBlock (callWithin (steps + 1)) turns image.heap.scopes.size stmts i =
      .error (.thrown (.transfer a)) k → Holds k.heap image.heap.scopes.size host target :=
    fun _ _ ended => entered.keeps holding ended
  exact .ofWrap (.afterStmt (entered.defined holding) (.ofStmt
    (.intercepted holding.ne_signal (entered.holds holding) keeps active)))

/-- A block that returns the value of an expression. -/
theorem return_result {call : Caller} (c : Nat) (code : Expr) :
    (execBlock call turns c [.ret code] >>= resultOf) = evalExpr call turns c code := by
  funext image
  rw [execBlock_singleton, exec]
  change EStateM.bind (EStateM.bind _ _) _ image = _
  simp only [EStateM.bind]
  cases evalExpr call turns c code image <;> rfl

theorem handlerImage_signal (k : Image) (c : Nat) (a : Address) :
    (handlerImage k c a).heap.lookupVariable? k.heap.scopes.size "cf" = some (.transfer a) := by
  refine lookupVariable?_own ?_ ?_
  · change _ < (k.heap.scopes.push _).size
    simp
  · rw [handlerImage_scope]
    simp

/-- What the exit at hand carries. -/
theorem evalExpr_signalPayload {call : Caller} (k : Image) (c : Nat) (a : Address) :
    evalExpr call turns k.heap.scopes.size signalPayload (handlerImage k c a) =
      .ok (k.heap.transfer a).payload (handlerImage k c a) :=
  (evalExpr_member (evalExpr_ident (handlerImage_signal k c a))).trans rfl

/-- A call of a support routine on values that are computed without a change. -/
theorem evalExpr_callRoutine {c : Nat} {r : Routine} {args : List Expr} {values : List Value}
    (ordered : Ordered k.heap)
    (done : evalList (callWithin (steps + 1)) turns c args i = .ok values k) :
    evalExpr (callWithin (steps + 1)) turns c (.callRoutine r args) i =
      runNative (callWithin steps) (.routine r) values k := by
  rw [Expr.callRoutine, Expr.routine, evalExpr_call fun _ _ same => by cases same]
  have found : evalExpr (callWithin (steps + 1)) turns c (.support (.native (.routine r))) i =
      .ok (.function (Image.nativeAddress (.routine r))) i := rfl
  rw [bind_of_ok found, bind_of_ok done]
  exact callWithin_native ordered _ _

/-- A handler that hands what the exit carries to the form's acceptor. -/
theorem deliver_result {values : List Value}
    (entered : Entered steps turns b image host initial target i)
    (holding : Holding host initial stmts) (accepts : Accepts context image.heap b acceptor)
    (ended : execBlock (callWithin (steps + 1)) turns image.heap.scopes.size stmts i =
      .error (.thrown (.transfer a)) k)
    (carries : Carries k.heap (k.heap.transfer a).payload values) :
    (execBlock (callWithin (steps + 1)) turns k.heap.scopes.size
        [.ret (.callRoutine .deliverValues [context.acceptor, signalPayload])] >>= resultOf)
        (handlerImage k image.heap.scopes.size a) =
      callWithin steps acceptor values (handlerImage k image.heap.scopes.size a) := by
  have body := entered.body_steady holding
  rw [ended] at body
  have opened : Ordered (handlerImage k image.heap.scopes.size a).heap :=
    body.ordered.handler (Nat.lt_of_lt_of_le (entered.inner holding) body.scopes) a
  have accepted : evalExpr (callWithin (steps + 1)) turns k.heap.scopes.size context.acceptor
      (handlerImage k image.heap.scopes.size a) = .ok acceptor _ :=
    (entered.accepts holding accepts ended a).eval
  have payload : evalExpr (callWithin (steps + 1)) turns k.heap.scopes.size signalPayload
      (handlerImage k image.heap.scopes.size a) = _ :=
    evalExpr_signalPayload k image.heap.scopes.size a
  have arguments : evalList (callWithin (steps + 1)) turns k.heap.scopes.size
      [context.acceptor, signalPayload] (handlerImage k image.heap.scopes.size a) =
      .ok [acceptor, (k.heap.transfer a).payload] (handlerImage k image.heap.scopes.size a) := by
    simp only [evalList]
    rw [bind_of_ok accepted, bind_assoc, bind_of_ok payload]
    rfl
  rw [return_result, evalExpr_callRoutine opened arguments]
  have carried : (handlerImage k image.heap.scopes.size a).valuesOf (k.heap.transfer a).payload =
      values := carries.valuesOf
  change callWithin steps acceptor ((handlerImage k image.heap.scopes.size a).valuesOf
    (k.heap.transfer a).payload) _ = _
  rw [carried]

end Interception

section Passing

/-- The handlers and cleanups that an exit goes past: handlers of forms of another kind or with
another identity, and cleanups that end normally. -/
inductive Passes (exitKind : TransferKind) (left : Value) (a : Address) :
    List Layer → Image → Image → Prop where
  | nil : Passes exitKind left a [] k k
  | exit (other : kind = exitKind → left.strictEq target = false)
      (passes : Passes exitKind left a pending (handlerImage k b a) last) :
      Passes exitKind left a (.exit b kind target :: pending) k last
  | cleanup (done : execBlock (callWithin steps) turns b code k = .ok .normal later)
      (passes : Passes exitKind left a pending later last) :
      Passes exitKind left a (.cleanup (execBlock (callWithin steps) turns b code) :: pending) k last
  | activation (passes : Passes exitKind left a pending { k with depth := k.depth - 1 } last) :
      Passes exitKind left a (.activation :: pending) k last

/-- The handlers, of whatever form, and the cleanups that end normally, that a failure goes past. -/
inductive Unwinds : List Layer → Image → Image → Prop where
  | nil : Unwinds [] k k
  | exit (unwinds : Unwinds pending k last) : Unwinds (.exit b kind target :: pending) k last
  | cleanup {task : Run Flow} (done : task k = .ok .normal later)
      (unwinds : Unwinds pending later last) : Unwinds (.cleanup task :: pending) k last
  | activation (unwinds : Unwinds pending { k with depth := k.depth - 1 } last) :
      Unwinds (.activation :: pending) k last

variable {exitKind : TransferKind} {left : Value} {a : Address} {pending : List Layer}
  {i k last : Image}

/-- The exit of a transfer that is there for what is left. -/
structure Leaves (heap : Heap) (exitKind : TransferKind) (left : Value) (a : Address) : Prop where
  bound : a < heap.transfers.size
  kind : (heap.transfer a).kind = exitKind
  target : (heap.transfer a).target = left

theorem Leaves.later (leaves : Leaves i.heap exitKind left a) (adds : Adds i k) :
    Leaves k.heap exitKind left a := by
  have same := adds.transfer leaves.bound
  exact ⟨Nat.lt_of_lt_of_le leaves.bound adds.transfers.size_le, same ▸ leaves.kind,
    same ▸ leaves.target⟩

theorem Leaves.isFor_eq (leaves : Leaves k.heap exitKind left a) (kind : TransferKind)
    (target : Value) :
    isFor kind target (k.heap.transfer a) = (exitKind == kind && left.strictEq target) := by
  rw [isFor, leaves.kind, leaves.target]

theorem handlerImage_adds (k : Image) (b : Nat) (a : Address) : Adds k (handlerImage k b a) :=
  have opened := Adds.allocScope k ⟨({} : Variables).insert "cf" (.transfer a), some b, false⟩
  ⟨opened.closures, opened.vars, Nat.le_refl _, .refl _, .refl _⟩

/-- An exit that goes past all that is pending arrives as it was thrown. -/
theorem Passes.crosses (passes : Passes exitKind left a pending k last)
    (leaves : Leaves k.heap exitKind left a) :
    Crosses pending (.thrown (.transfer a)) k (.thrown (.transfer a)) last ∧ Adds k last := by
  induction passes with
  | nil => exact ⟨.nil, .refl _⟩
  | exit other passes ih =>
      rename_i kind target pending k b last
      have adds := handlerImage_adds k b a
      obtain ⟨crosses, further⟩ := ih (leaves.later adds)
      refine ⟨.cons (.foreign ?_) crosses, adds.trans further⟩
      rw [leaves.isFor_eq]
      cases same : exitKind == kind with
      | true => rw [other (eq_of_beq same).symm, Bool.and_false]
      | false => rw [Bool.false_and]
  | cleanup done passes ih =>
      rename_i steps turns b code k later pending last
      have adds := @execBlock_adds _ turns (callWithin_adds steps) code b k
      rw [done] at adds
      obtain ⟨crosses, further⟩ := ih (leaves.later adds)
      exact ⟨.cons (.cleaned (by nofun) done) crosses, adds.trans further⟩
  | activation passes ih =>
      obtain ⟨crosses, further⟩ := ih leaves
      exact ⟨.cons .activation crosses, ⟨further.closures, further.vars, further.vectors,
        further.bundles, further.transfers⟩⟩

/-- No handler takes a failure. -/
theorem Unwinds.crosses (unwinds : Unwinds pending k last) (error : RuntimeError) :
    Crosses pending (.failed error) k (.failed error) last := by
  induction unwinds with
  | nil => exact .nil
  | exit _ ih => exact .cons .failure ih
  | cleanup done _ ih => exact .cons (.cleaned (by nofun) done) ih
  | activation _ ih => exact .cons .activation ih

end Passing

section Raising

variable {steps turns d : Nat} {i j : Image} {kind : TransferKind} {token text : String}
  {target : Value} {code : Expr}

/-- The text that names an exit in messages. -/
def transferLabel (image : Image) : Value → Option String
  | .string _ text => some text
  | .undefined => none
  | other => some (image.print other)

/-- The image with one more transfer, of an exit that is under way. -/
def Image.throwing (image : Image) (transfer : Transfer) : Image :=
  { image with heap := (image.heap.allocTransfer transfer).2 }

theorem throwing_transfer (image : Image) (transfer : Transfer) :
    (image.throwing transfer).heap.transfer image.heap.transfers.size = transfer := by
  change (image.heap.transfers.push _).getD image.heap.transfers.size default = _
  rw [getD_push, if_pos rfl]

theorem throwing_leaves (image : Image) (transfer : Transfer) :
    Leaves (image.throwing transfer).heap transfer.kind transfer.target
      image.heap.transfers.size := by
  have same := throwing_transfer image transfer
  refine ⟨?_, by rw [same], by rw [same]⟩
  change _ < (image.heap.transfers.push _).size
  simp

theorem throwing_adds (image : Image) (transfer : Transfer) :
    Adds image (image.throwing transfer) :=
  ⟨.refl _, fun _ _ held => held, Nat.le_refl _, .refl _, ⟨#[_], Array.push_eq_append⟩⟩

theorem makeTransfer_throwing (image : Image) (address : Address) (target payload label : Value) :
    makeTransfer [.string address kind.name, target, payload, label] image =
      .ok (.transfer image.heap.transfers.size)
        (image.throwing ⟨kind, target, payload, transferLabel image label⟩) := by
  unfold makeTransfer
  simp only [argument, List.getElem?_cons_zero, List.getElem?_cons_succ, Option.getD_some,
    TransferKind.ofName?_name]
  cases label <;> rfl

/-- A new scope shows the variables of the scope around it. -/
theorem lookupVariable?_inside (ordered : Ordered i.heap) (bound : d < i.heap.scopes.size)
    {name : String} (name_ne : name ≠ "arguments") :
    (i.inside d).heap.lookupVariable? i.heap.scopes.size name =
      i.heap.lookupVariable? d name := by
  have opened := Ordered.inside_steady ordered.valid bound
  have inner : i.heap.scopes.size < (i.inside d).heap.scopes.size := by
    rw [inside_size]
    exact Nat.lt_succ_self _
  have hidden : ((i.inside d).heap.scope i.heap.scopes.size).vars[name]? = none := by
    rw [inside_scope, Std.TreeMap.getElem?_insert, if_neg (by simpa using name_ne.symm)]
    simp
  rw [lookupVariable?_outer opened.ordered inner (by rw [inside_scope]) hidden]
  apply findVariable_congr ordered
  · exact fun c le => opened.parents c (by omega)
  · intro c le
    change (((i.heap.scopes.push _).getD c default).vars[name]?) = _
    rw [getD_push, if_neg (by omega)]
    rfl
  · rw [inside_size]
    omega
  · exact bound

theorem Machine.Valid.moreStrings {watched : Nat → String → Prop} (valid : Valid watched i)
    (count : Nat) : Steady watched i (Image.moreStrings i count) :=
  Quiet.steady (j := Image.moreStrings i count)
    ⟨rfl, fun _ => rfl, Nat.le_refl _, .refl _, .refl _⟩ valid

/-- The image in which an exit to a known target is under way. -/
def raisedImage (image : Image) (kind : TransferKind) (target payload : Value) (text : String) :
    Image :=
  (Image.moreStrings image 1).throwing ⟨kind, target, payload, some text⟩

/-- An exit computes what it carries and is thrown to the target that its variable holds. -/
theorem raise_eval (ordered : Ordered i.heap) (bound : d < i.heap.scopes.size)
    (token_ne : token ≠ "arguments") (clear : "values" ∉ code.assigned)
    (held : i.heap.lookupVariable? d token = some target) :
    evalExpr (callWithin (steps + 1)) turns d
        (raiseTransfer kind (.ident token) code (.string text)) i =
      match evalExpr (callWithin (steps + 1)) turns i.heap.scopes.size code
          (Image.moreStrings (i.inside d) 1) with
      | .ok payload later =>
          .error (.thrown (.transfer later.heap.transfers.size))
            (raisedImage later kind target payload text)
      | .error interrupt later => .error interrupt later := by
  have opened := (Ordered.inside_steady ordered.valid bound).ordered
  have inner : i.heap.scopes.size < (i.inside d).heap.scopes.size := by
    rw [inside_size]
    exact Nat.lt_succ_self _
  have function : evalExpr (callWithin (steps + 1)) turns i.heap.scopes.size (.routine .transfer)
      (i.inside d) =
      .ok (.function (Image.nativeAddress (.routine .transfer))) (i.inside d) := rfl
  have name : evalExpr (callWithin (steps + 1)) turns i.heap.scopes.size (.string kind.name)
      (i.inside d) = .ok (.string (i.inside d).heap.strings kind.name)
        (Image.moreStrings (i.inside d) 1) := by
    rw [evalExpr]
    rfl
  have scopes : (Image.moreStrings (i.inside d) 1).heap.scopes = (i.inside d).heap.scopes := rfl
  have found : evalExpr (callWithin (steps + 1)) turns i.heap.scopes.size (.ident token)
      (Image.moreStrings (i.inside d) 1) = .ok target (Image.moreStrings (i.inside d) 1) :=
    evalExpr_ident ((lookupVariable?_congr scopes _ _).trans
      ((lookupVariable?_inside ordered bound token_ne).trans held))
  have valid := (opened.valid.moreStrings 1).valid
  have steady := @evalExpr_steady nothing _ turns (callWithin_steady (steps + 1)) code
    (Image.moreStrings (i.inside d) 1) i.heap.scopes.size ⟨valid, inner, clear, nofun⟩
  rw [raiseTransfer, evalExpr_wrap_singleton, exec, transferExpr, Expr.callRoutine,
    evalExpr_call fun _ _ same => by cases same]
  simp only [bind_assoc]
  rw [bind_of_ok function]
  simp only [evalList, bind_assoc, pure_bind]
  rw [bind_of_ok name, bind_of_ok found]
  cases ended : evalExpr (callWithin (steps + 1)) turns i.heap.scopes.size code
      (Image.moreStrings (i.inside d) 1) with
  | error interrupt later =>
      change EStateM.bind _ _ _ = _
      rw [EStateM.bind, ended]
  | ok payload later =>
      rw [bind_of_ok ended]
      rw [ended] at steady
      have label : evalExpr (callWithin (steps + 1)) turns i.heap.scopes.size (.string text) later =
          .ok (.string later.heap.strings text) (Image.moreStrings later 1) := by
        rw [evalExpr]
        rfl
      have last := (steady.valid.moreStrings 1).ordered
      have made : callWithin (steps + 1) (.function (Image.nativeAddress (.routine .transfer)))
          [.string (i.inside d).heap.strings kind.name, target, payload,
            .string later.heap.strings text] (Image.moreStrings later 1) =
          .ok (.transfer later.heap.transfers.size)
            (raisedImage later kind target payload text) :=
        (callWithin_native last _ _).trans (@makeTransfer_throwing kind (Image.moreStrings later 1)
          (i.inside d).heap.strings target payload (.string later.heap.strings text))
      rw [bind_of_ok label, bind_of_ok made]
      rfl

end Raising

end LispScript
