import LispScript.Proofs.Forms

/-!
Cleanups. Whichever way the protected form of an `UNWIND-PROTECT` is left, its cleanup forms run
after it, once and in order; unless one of them exits, the form is left the same way. An exit through
several of them runs the innermost cleanup first.
-/

namespace LispScript

open Script Compiler Machine Discipline

variable {call : Caller} {turns : Nat}

section Outcomes

/-- The outcome of a run with a cleanup after it: what the cleanup ends with, if it is interrupted,
and else what the run ended with, in the image that the cleanup leaves. A run that is out of steps
has not ended. -/
def cleanedUp (cleanup : Run β) :
    EStateM.Result Interrupt Image α → EStateM.Result Interrupt Image α
  | .error .outOfSteps later => .error .outOfSteps later
  | .ok a later =>
      match cleanup later with
      | .ok _ last => .ok a last
      | .error interrupt last => .error interrupt last
  | .error interrupt later =>
      match cleanup later with
      | .ok _ last => .error interrupt last
      | .error other last => .error other last

/-- Two images that differ in what was allocated only: no object, variable or symbol that was there
has changed. -/
structure OnlyAllocates (image later : Image) : Prop where
  symbols : later.symbols = image.symbols
  cells : later.heap.cells = image.heap.cells
  vectors : later.heap.vectors = image.heap.vectors
  bundles : later.heap.bundles = image.heap.bundles
  transfers : later.heap.transfers = image.heap.transfers
  scopes : later.heap.scopes = image.heap.scopes
  functions : ∃ more, later.heap.functions = image.heap.functions ++ more
  depth : later.depth = image.depth

theorem OnlyAllocates.refl (image : Image) : OnlyAllocates image image :=
  ⟨rfl, rfl, rfl, rfl, rfl, rfl, ⟨#[], by simp⟩, rfl⟩

/-- Code that is left out as constant has no effect where it can be evaluated. -/
theorem OnlyAllocates.of_isConstant {b : Address} {code : Expr} {value : Value}
    {image later : Image} (constant : code.isConstant = true)
    (done : evalExpr call turns b code image = .ok value later) :
    OnlyAllocates image later := by
  cases code with
  | number n => cases done; exact .refl image
  | string text => cases done; exact ⟨rfl, rfl, rfl, rfl, rfl, rfl, ⟨#[], by simp⟩, rfl⟩
  | bool truth => cases done; exact .refl image
  | undefined => cases done; exact .refl image
  | ident name =>
      cases found : image.heap.lookupVariable? b name with
      | some held =>
          rw [evalExpr_ident found] at done
          cases done
          exact .refl image
      | none =>
          rw [evalExpr_ident_eq, found] at done
          cases done
  | support member =>
      simp only [evalExpr] at done
      cases given : Image.support? member with
      | some held =>
          rw [given] at done
          cases done
          exact .refl image
      | none =>
          rw [given] at done
          cases done
  | function params body =>
      cases done
      exact ⟨rfl, rfl, rfl, rfl, rfl, rfl, ⟨#[_], Array.push_eq_append⟩, rfl⟩
  | _ => simp [Expr.isConstant] at constant

/-- The protected form runs in a scope of its own, with the cleanup after it. -/
theorem evalExpr_guarded (b : Nat) (image : Image) (body : Expr) (tasks : List Expr) :
    evalExpr call turns b
        (.wrap [.guarded [.ret body] .none (.always (tasks.map .effect))]) image =
      cleanedUp (evalList call turns image.heap.scopes.size tasks)
        (evalExpr call turns image.heap.scopes.size body (image.inside b)) := by
  have protected_eq : ∀ i, execBlock call turns image.heap.scopes.size [.ret body] i =
      match evalExpr call turns image.heap.scopes.size body i with
      | .ok value later => .ok (.returned value) later
      | .error interrupt later => .error interrupt later := by
    intro i
    rw [execBlock_singleton]
    simp only [exec]
    change EStateM.bind _ _ i = _
    rw [EStateM.bind]
    cases evalExpr call turns image.heap.scopes.size body i <;> rfl
  have cleanup_eq : ∀ i,
      execBlock call turns image.heap.scopes.size (tasks.map .effect) i =
      match evalList call turns image.heap.scopes.size tasks i with
      | .ok _ later => .ok .normal later
      | .error interrupt later => .error interrupt later := by
    intro i
    rw [execBlock_effects]
    change EStateM.bind _ _ i = _
    rw [EStateM.bind]
    cases evalList call turns image.heap.scopes.size tasks i <;> rfl
  rw [evalExpr_wrap_singleton]
  simp only [exec]
  change EStateM.bind _ _ _ = _
  rw [EStateM.bind]
  unfold ensuring
  rw [protected_eq]
  cases evalExpr call turns image.heap.scopes.size body (image.inside b) with
  | ok value later =>
      simp only [cleanup_eq, cleanedUp]
      cases evalList call turns image.heap.scopes.size tasks later <;> rfl
  | error interrupt later =>
      cases interrupt with
      | outOfSteps => rfl
      | thrown value =>
          simp only [cleanup_eq, cleanedUp]
          cases evalList call turns image.heap.scopes.size tasks later <;> rfl
      | failed error =>
          simp only [cleanup_eq, cleanedUp]
          cases evalList call turns image.heap.scopes.size tasks later <;> rfl

end Outcomes

section Compilation

/-- The expressions that are evaluated for their effect. -/
def effectiveCodes (tasks : List Expr) : List Expr := tasks.filter (!·.isConstant)

variable {depth : Nat} {context : Context} {form guardedForm : Value} {cleanup : List Value}
  {s s' : CompileState} {code : Expr}

/-- The codes of an `UNWIND-PROTECT` form's parts, compiled in order, and what is made of them. -/
theorem compile_unwindProtect
    (isForm : IsForm s.image.heap .unwindProtect (guardedForm :: cleanup) form)
    (compiled : compileWithin (depth + 1) context form s = .ok code s') :
    ∃ (body : Expr) (tasks : List Expr) (middle : CompileState),
      compileWithin depth context guardedForm s = .ok body middle ∧
      cleanup.mapM (compileWithin depth context.single) middle = .ok tasks s' ∧
      code = if cleanup.isEmpty then body
        else .wrap [.guarded [.ret body] .none
          (.always ((effectiveCodes tasks).map .effect))] := by
  rw [compileWithin_special isForm] at compiled
  simp only [compileSpecial, compileUnwindProtect] at compiled
  obtain ⟨body, middle, compiledBody, compiled⟩ := ok_of_bind compiled
  cases cleanup with
  | nil =>
      cases compiled
      exact ⟨_, [], _, compiledBody, rfl, rfl⟩
  | cons first rest =>
      simp only [List.isEmpty_cons, Bool.false_eq_true, if_false] at compiled ⊢
      obtain ⟨effects, later, compiledEffects, compiled⟩ := ok_of_bind compiled
      cases compiled
      simp only [compileEffects] at compiledEffects
      obtain ⟨tasks, last, compiledTasks, filtered⟩ := ok_of_bind compiledEffects
      cases filtered
      exact ⟨body, tasks, middle, compiledBody, compiledTasks, rfl⟩

/-- The protected form is at work inside the whole form, with the cleanup pending around it. -/
theorem Machine.Active.unwindProtect {x : Run β} {j image : Image} {b : Nat} {body : Expr}
    {tasks : List Expr} {pending : List Layer}
    (active : Active x j (evalExpr call turns image.heap.scopes.size body) (image.inside b) pending) :
    Active x j (evalExpr call turns b
        (.wrap [.guarded [.ret body] .none (.always (tasks.map .effect))])) image
      (pending ++ [.cleanup (execBlock call turns image.heap.scopes.size (tasks.map .effect))]) := by
  refine .ofWrap (.ofStmt ?_)
  simp only [exec]
  exact .ensured (.ofReturn active)

/-- What code does that evaluates a body and then, however the body ends, the tasks after it. -/
structure RunsCleanup (body : Expr) (tasks : List Expr) (code : Expr) : Prop where
  /-- The tasks run once each, in order and after the body, and what they leave of its outcome is
  the outcome of the whole. -/
  outcome : ∀ (call : Caller) (turns b : Nat) (image : Image),
    evalExpr call turns b code image =
      cleanedUp (evalList call turns image.heap.scopes.size (effectiveCodes tasks))
        (evalExpr call turns image.heap.scopes.size body (image.inside b))
  /-- An exit from anywhere inside the body runs the cleanups that are pending there, the innermost
  first, and then the tasks, once each. -/
  order : ∀ (call : Caller) (turns b : Nat) (β : Type) (x : Run β) (image j k k' : Image)
    (pending : List Layer) (interrupt interrupt' : Interrupt),
    Active x j (evalExpr call turns image.heap.scopes.size body) (image.inside b) pending →
    x j = .error interrupt k →
    Crosses (pending ++ [.cleanup (execBlock call turns image.heap.scopes.size
      ((effectiveCodes tasks).map .effect))]) interrupt k interrupt' k' →
    evalExpr call turns b code image = .error interrupt' k'
  /-- A task that is left out would have had no effect. -/
  omitted : ∀ task ∈ tasks, task ∉ effectiveCodes tasks →
    ∀ (call : Caller) (turns : Nat) (b : Address) (value : Value) (image later : Image),
      evalExpr call turns b task image = .ok value later → OnlyAllocates image later

theorem RunsCleanup.of_wrap (body : Expr) (tasks : List Expr) :
    RunsCleanup body tasks
      (.wrap [.guarded [.ret body] .none (.always ((effectiveCodes tasks).map .effect))]) where
  outcome _ _ b image := evalExpr_guarded b image body _
  order _ _ _ _ _ _ _ _ _ _ _ _ active ended crosses :=
    active.unwindProtect.crosses ended crosses
  omitted task member out _ _ _ _ _ _ done := by
    have constant : task.isConstant = true := by
      simpa [effectiveCodes, member] using out
    exact OnlyAllocates.of_isConstant constant done

/-- The cleanup forms of an `UNWIND-PROTECT` are evaluated once each, in order and after the
protected form, whichever way that is left. -/
theorem unwindProtect_runs_cleanup
    (isForm : IsForm s.image.heap .unwindProtect (guardedForm :: cleanup) form)
    (compiled : compileWithin (depth + 1) context form s = .ok code s') :
    ∃ (body : Expr) (tasks : List Expr) (middle : CompileState),
      compileWithin depth context guardedForm s = .ok body middle ∧
      cleanup.mapM (compileWithin depth context.single) middle = .ok tasks s' ∧
      if cleanup = [] then code = body else RunsCleanup body tasks code := by
  obtain ⟨body, tasks, middle, compiledBody, compiledTasks, code_eq⟩ :=
    compile_unwindProtect isForm compiled
  refine ⟨body, tasks, middle, compiledBody, compiledTasks, ?_⟩
  by_cases none_ : cleanup = []
  · rw [if_pos none_]
    rwa [if_pos (by simp [none_])] at code_eq
  · rw [if_neg none_]
    rw [if_neg (by simpa using none_)] at code_eq
    rw [code_eq]
    exact RunsCleanup.of_wrap body tasks

/-- The cells of `(UNWIND-PROTECT (UNWIND-PROTECT 1 (CAR NIL)) (CDR NIL) T)`. -/
def protectedCells : List Cell :=
  [⟨.symbol SpecialForm.unwindProtect.symbol, .cons 1⟩, ⟨.cons 4, .cons 2⟩, ⟨.cons 9, .cons 3⟩,
    ⟨.t, .nil⟩, ⟨.symbol SpecialForm.unwindProtect.symbol, .cons 5⟩, ⟨.number 1, .cons 6⟩,
    ⟨.cons 7, .nil⟩, ⟨.symbol Primitive.car.symbol, .cons 8⟩, ⟨.nil, .nil⟩,
    ⟨.symbol Primitive.cdr.symbol, .cons 8⟩]

theorem unwindProtect_runs_cleanup_nested :
    let s := CompileState.ofCells protectedCells
    IsForm s.image.heap .unwindProtect [.cons 4, .cons 9, .t] (.cons 0) ∧
      ∃ code s', compileWithin 4 .toplevel (.cons 0) s = .ok code s' ∧
        ∃ (body : Expr) (tasks : List Expr) (middle : CompileState),
          compileWithin 3 .toplevel (.cons 4) s = .ok body middle ∧
          [.cons 9, .t].mapM (compileWithin 3 Context.toplevel.single) middle = .ok tasks s' ∧
          RunsCleanup body tasks code := by
  intro s
  have isForm : IsForm s.image.heap .unwindProtect [.cons 4, .cons 9, .t] (.cons 0) :=
    ⟨0, rfl, rfl, rfl⟩
  have compiled : ∃ code s', compileWithin 4 .toplevel (.cons 0) s = .ok code s' := ⟨_, _, rfl⟩
  obtain ⟨code, s', compiled⟩ := compiled
  refine ⟨isForm, code, s', compiled, ?_⟩
  simpa using unwindProtect_runs_cleanup isForm compiled

end Compilation

end LispScript
