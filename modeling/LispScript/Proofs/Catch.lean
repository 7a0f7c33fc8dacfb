import LispScript.Proofs.Interception

/-!
`CATCH` and `THROW`. A `THROW` evaluates its tag and then its result, and control resumes at the
innermost active `CATCH` whose tag is the same; handlers in between, for other tags or of other
forms, let it pass.
-/

namespace LispScript

open Script Compiler Machine Discipline

section Compilation

variable {context : Context} {s s' : CompileState} {depth : Nat} {form tag result : Value}
  {body : List Value} {expr : Expr}

/-- Counting on succeeds only where the counter goes on. -/
theorem onCounters_ok {f : Counters → α × Counters} {a : α} (done : onCounters f s = .ok a s') :
    (f s.counters).2 ≠ s.counters ∧ a = (f s.counters).1 ∧
      s' = { s with counters := (f s.counters).2 } := by
  change (if (f s.counters).2 = s.counters then EStateM.Result.error CompileError.outOfSteps s
    else .ok (f s.counters).1 { s with counters := (f s.counters).2 }) = _ at done
  by_cases same : (f s.counters).2 = s.counters
  · rw [if_pos same] at done
    cases done
  · rw [if_neg same] at done
    cases done
    exact ⟨same, rfl, rfl⟩

/-- A new variable's name is made between the states. -/
theorem freshVariable_made {hint name : String} (sparing : Sparing (· = "values") s)
    (done : freshVariable hint s = .ok name s') :
    Made s.counters s'.counters name := by
  obtain ⟨changed, rfl, rfl⟩ := onCounters_ok done
  have later : s.counters.vars < next s.counters.vars :=
    lt_next sparing.bounded.vars fun same =>
      changed (congrArg (fun n => { s.counters with vars := n }) same)
  exact .variable_ hint _ later (Nat.le_refl _)

/-- The statements of a body declare no variable. -/
theorem compileBody_declared {compile : FormCompiler} {forms : List Value} {stmts : List Stmt}
    (done : compileBody compile context forms s = .ok stmts s') :
    Stmt.declaredAll stmts = [] := by
  cases last : forms.getLast? with
  | none =>
      simp only [compileBody, last] at done
      cases done
      rfl
  | some form =>
      simp only [compileBody, last] at done
      obtain ⟨effects, s₁, -, done⟩ := ok_of_bind done
      obtain ⟨value, s₂, -, done⟩ := ok_of_bind done
      cases done
      simp [Stmt.declaredAll, Stmt.declared]

/-- A form that intercepts exits keeps a new variable, which its parts leave alone. -/
theorem holding_of_made {host : String} {initial : Expr} {stmts : List Stmt}
    (made : Made s.counters s'.counters host) (free : Free (kept host) initial.assigned)
    (assigned : Free (kept host) (Stmt.assignedAll stmts))
    (declared : Free (kept host) (Stmt.declaredAll stmts)) :
    Holding host initial stmts :=
  ⟨fun same => made.unreserved (same ▸ values_reserved), fun same => by
    subst same
    exact made.unreserved (by decide), free, assigned, declared⟩

/-- The codes of a `CATCH` form's tag and body, compiled in order. -/
structure CatchParts (depth : Nat) (context : Context) (tag : Value) (body : List Value)
    (s s' : CompileState) where
  host : String
  initial : Expr
  stmts : List Stmt
  first : CompileState
  second : CompileState
  fresh : freshVariable "tag" s = .ok host first
  compiledTag : compileWithin depth context.single tag first = .ok initial second
  compiledBody : compileBody (compileWithin depth) context body second = .ok stmts s'

/-- The codes of a `THROW` form's tag and result, compiled in order. -/
structure ThrowParts (depth : Nat) (context : Context) (tag result : Value)
    (s s' : CompileState) where
  host : String
  initial : Expr
  bundle : Expr
  first : CompileState
  second : CompileState
  fresh : freshVariable "tag" s = .ok host first
  compiledTag : compileWithin depth context.single tag first = .ok initial second
  compiledResult : compileBundle (compileWithin depth) context result second = .ok bundle s'

/-- The code of a `THROW` form. -/
def thrower (host : String) (initial bundle : Expr) : Expr :=
  .wrap [.define host initial, .raise (transferExpr .catching (.ident host) bundle (.ident host))]

/-- The code that is made of the parts. -/
def CatchParts.code (parts : CatchParts depth context tag body s s') : Expr :=
  interceptor parts.host parts.initial parts.stmts .catching
    [.ret (.callRoutine .deliverValues [context.acceptor, signalPayload])]

def ThrowParts.code (parts : ThrowParts depth context tag result s s') : Expr :=
  thrower parts.host parts.initial parts.bundle

theorem compile_catch (isForm : IsForm s.image.heap .catching (tag :: body) form)
    (compiled : compileWithin (depth + 1) context form s = .ok expr s') :
    ∃ parts : CatchParts depth context tag body s s', expr = parts.code := by
  rw [compileWithin_special isForm] at compiled
  simp only [compileSpecial, compileCatch] at compiled
  obtain ⟨host, s₁, fresh, compiled⟩ := ok_of_bind compiled
  obtain ⟨initial, s₂, compiledTag, compiled⟩ := ok_of_bind compiled
  obtain ⟨stmts, s₃, compiledBody, compiled⟩ := ok_of_bind compiled
  cases compiled
  exact ⟨⟨host, initial, stmts, s₁, s₂, fresh, compiledTag, compiledBody⟩, rfl⟩

theorem compile_throw (isForm : IsForm s.image.heap .throwing [tag, result] form)
    (compiled : compileWithin (depth + 1) context form s = .ok expr s') :
    ∃ parts : ThrowParts depth context tag result s s', expr = parts.code := by
  rw [compileWithin_special isForm] at compiled
  simp only [compileSpecial, compileThrow] at compiled
  obtain ⟨host, s₁, fresh, compiled⟩ := ok_of_bind compiled
  obtain ⟨initial, s₂, compiledTag, compiled⟩ := ok_of_bind compiled
  obtain ⟨bundle, s₃, compiledResult, compiled⟩ := ok_of_bind compiled
  cases compiled
  exact ⟨⟨host, initial, bundle, s₁, s₂, fresh, compiledTag, compiledResult⟩, rfl⟩

/-- What is known after the tag of either form was compiled. -/
theorem Standing.afterTag (standing : Standing context s) {host : String} {initial : Expr}
    {first second : CompileState} (fresh : freshVariable "tag" s = .ok host first)
    (compiledTag : compileWithin depth context.single tag first = .ok initial second) :
    Since s second (kept host) ∧ Sparing (· = "values") second ∧
      Free (kept host) initial.assigned := by
  have made := freshVariable_made standing.sparing fresh
  have since : Since s first (kept host) := .one host made
  obtain ⟨-, sparing⟩ := Sparing.after (Spares.freshVariable "tag") standing.sparing fresh
  have free := standing.code since sparing
    (fun apart => compileWithin_spares depth context.single tag apart) compiledTag
  have apart : Apart (· = "values") context.env := fun name hosts same =>
    standing.apart since name hosts (.inl same)
  obtain ⟨leads, later⟩ := Sparing.after
    (compileWithin_spares depth context.single tag apart) sparing compiledTag
  exact ⟨.one host (made.left leads), later, free⟩

theorem CatchParts.holding (parts : CatchParts depth context tag body s s')
    (standing : Standing context s) : Holding parts.host parts.initial parts.stmts := by
  obtain ⟨since, sparing, free⟩ := standing.afterTag parts.fresh parts.compiledTag
  have assigned := standing.code since sparing
    (fun apart => compileBody_spares (compileWithin_spares depth) apart body) parts.compiledBody
  refine holding_of_made (freshVariable_made standing.sparing parts.fresh) free assigned ?_
  rw [compileBody_declared parts.compiledBody]
  exact free_nil

theorem ThrowParts.holding (parts : ThrowParts depth context tag result s s')
    (standing : Standing context s) : Holding parts.host parts.initial [.effect parts.bundle] := by
  obtain ⟨since, sparing, free⟩ := standing.afterTag parts.fresh parts.compiledTag
  have assigned := standing.code since sparing
    (fun apart => compileBundle_spares (compileWithin_spares depth) apart result)
    parts.compiledResult
  refine holding_of_made (freshVariable_made standing.sparing parts.fresh) free ?_ free_nil
  simpa [Stmt.assignedAll, Stmt.assigned] using assigned

end Compilation

section Throwing

variable {steps turns d : Nat} {j j' k : Image} {host : String} {initial bundle : Expr}
  {tag payload : Value} {interrupt : Interrupt}

/-- The image in which the exit of a `THROW` is under way. -/
def thrownImage (image : Image) (tag payload : Value) : Image :=
  image.throwing ⟨.catching, tag, payload, transferLabel image tag⟩

/-- A `THROW` whose tag fails fails as the tag does. -/
theorem thrower_tag_fails
    (ended : evalExpr (callWithin (steps + 1)) turns j.heap.scopes.size initial (j.inside d) =
      .error interrupt k) :
    evalExpr (callWithin (steps + 1)) turns d (thrower host initial bundle) j =
      .error interrupt k := by
  rw [thrower, evalExpr_wrap, execBlock, exec]
  change EStateM.bind (EStateM.bind (EStateM.bind _ _) _) _ _ = _
  simp only [EStateM.bind, ended]

/-- The result of a `THROW` is evaluated after the tag, with one string made in between. -/
theorem thrower_eval (entered : Entered steps turns d j host initial tag j')
    (holding : Holding host initial [.effect bundle]) :
    evalExpr (callWithin (steps + 1)) turns d (thrower host initial bundle) j =
      match evalExpr (callWithin (steps + 1)) turns j.heap.scopes.size bundle
          (Image.moreStrings j' 1) with
      | .ok payload later =>
          .error (.thrown (.transfer later.heap.transfers.size)) (thrownImage later tag payload)
      | .error interrupt later => .error interrupt later := by
  have text : evalExpr (callWithin (steps + 1)) turns j.heap.scopes.size
      (.string TransferKind.catching.name) j' =
      .ok (.string j'.heap.strings TransferKind.catching.name) (Image.moreStrings j' 1) := by
    rw [evalExpr]
    rfl
  have scopes : (Image.moreStrings j' 1).heap.scopes = j'.heap.scopes := rfl
  have found : evalExpr (callWithin (steps + 1)) turns j.heap.scopes.size (.ident host)
      (Image.moreStrings j' 1) = .ok tag (Image.moreStrings j' 1) :=
    evalExpr_ident ((lookupVariable?_congr scopes _ _).trans (entered.holds holding).lookup)
  have strings := (entered.valid holding).moreStrings 1
  have free : Free (kept host) bundle.assigned := by
    simpa [Stmt.assignedAll, Stmt.assigned] using holding.assigned
  have steady := @evalExpr_steady (around j.heap.scopes.size (kept host)) _ turns
    (callWithin_steady (steps + 1)) bundle (Image.moreStrings j' 1) j.heap.scopes.size
    ⟨strings.valid, .ofFree (.inl rfl) (Nat.lt_of_lt_of_le (entered.inner holding) strings.scopes)
      free⟩
  have function : evalExpr (callWithin (steps + 1)) turns j.heap.scopes.size
      (.routine .transfer) j' =
      .ok (.function (Image.nativeAddress (.routine .transfer))) j' := rfl
  rw [thrower, entered.eval holding, exec, transferExpr, Expr.callRoutine,
    evalExpr_call fun _ _ same => by cases same]
  simp only [bind_assoc]
  rw [bind_of_ok function]
  simp only [evalList, bind_assoc, pure_bind]
  rw [bind_of_ok text, bind_of_ok found]
  cases ended : evalExpr (callWithin (steps + 1)) turns j.heap.scopes.size bundle
      (Image.moreStrings j' 1) with
  | error interrupt later =>
      change EStateM.bind _ _ _ = _
      rw [EStateM.bind, ended]
  | ok payload later =>
      rw [bind_of_ok ended]
      rw [ended] at steady
      have held : Holds later.heap j.heap.scopes.size host tag :=
        ⟨Nat.lt_of_lt_of_le (entered.inner holding) steady.scopes,
          (steady.kept _ host (.inr ⟨rfl, .inr rfl⟩)).trans (entered.holds holding).held⟩
      have again : evalExpr (callWithin (steps + 1)) turns j.heap.scopes.size (.ident host) later =
          .ok tag later := evalExpr_ident held.lookup
      rw [bind_of_ok again]
      have made : callWithin (steps + 1) (.function (Image.nativeAddress (.routine .transfer)))
          [.string j'.heap.strings TransferKind.catching.name, tag, payload, tag] later =
          .ok (.transfer later.heap.transfers.size) (thrownImage later tag payload) :=
        (callWithin_native steady.ordered _ _).trans
          (@makeTransfer_throwing .catching later j'.heap.strings tag payload tag)
      rw [bind_of_ok made]
      rfl

end Throwing

section Meeting

variable {context context' : Context} {s s' t t' : CompileState} {depth depth' : Nat}
  {form form' tag tag' result : Value} {body : List Value} {code code' : Expr}

/-- How the code of a `CATCH` and that of a `THROW` meet. -/
structure Meets (catching : CatchParts depth context tag body s s')
    (throwing : ThrowParts depth' context' tag' result t t') : Prop where
  /-- The tag comes first: where it is interrupted, so is the `THROW`. -/
  tag_interrupted : ∀ {steps turns d : Nat} {j k : Image} {interrupt : Interrupt},
    evalExpr (callWithin (steps + 1)) turns j.heap.scopes.size throwing.initial (j.inside d) =
      .error interrupt k →
    evalExpr (callWithin (steps + 1)) turns d throwing.code j = .error interrupt k
  /-- The result comes second. With both the `THROW` exits, by a transfer of the tag and of the
  result, whatever values that has. -/
  throws : ∀ {steps turns d : Nat} {j j' : Image} {thrown : Value},
    Entered steps turns d j throwing.host throwing.initial thrown j' →
    evalExpr (callWithin (steps + 1)) turns d throwing.code j =
      match evalExpr (callWithin (steps + 1)) turns j.heap.scopes.size throwing.bundle
          (Image.moreStrings j' 1) with
      | .ok payload later =>
          .error (.thrown (.transfer later.heap.transfers.size)) (thrownImage later thrown payload)
      | .error interrupt later => .error interrupt later
  /-- A `CATCH` that such an exit arrives at delivers the values if its tag is the same, and lets the
  exit pass otherwise. -/
  resumes : ∀ {steps turns b steps' turns' d : Nat} {image i j j' later last : Image}
      {target thrown acceptor payload : Value} {values : List Value} {pending : List Layer},
    Entered steps turns b image catching.host catching.initial target i →
    Accepts context image.heap b acceptor →
    Active (evalExpr (callWithin (steps' + 1)) turns' d throwing.code) j
      (execBlock (callWithin (steps + 1)) turns image.heap.scopes.size catching.stmts) i pending →
    Entered steps' turns' d j throwing.host throwing.initial thrown j' →
    evalExpr (callWithin (steps' + 1)) turns' j.heap.scopes.size throwing.bundle
      (Image.moreStrings j' 1) = .ok payload later →
    Carries later.heap payload values →
    Passes .catching thrown later.heap.transfers.size pending (thrownImage later thrown payload)
      last →
    evalExpr (callWithin (steps + 1)) turns b catching.code image =
      let resumed := handlerImage last image.heap.scopes.size later.heap.transfers.size
      if thrown.strictEq target then callWithin steps acceptor values resumed
      else .error (.thrown (.transfer later.heap.transfers.size)) resumed
  /-- An active `CATCH` is one of those that an exit from inside has to go past. -/
  nests : ∀ {steps turns b : Nat} {image i j : Image} {target : Value} {β : Type} {x : Run β}
      {pending : List Layer},
    Entered steps turns b image catching.host catching.initial target i →
    Active x j (execBlock (callWithin (steps + 1)) turns image.heap.scopes.size catching.stmts) i
      pending →
    Active x j (evalExpr (callWithin (steps + 1)) turns b catching.code) image
      (pending ++ [.exit image.heap.scopes.size .catching target])
  /-- No handler intercepts a failure. -/
  fails : ∀ {steps turns b : Nat} {image i j k last : Image} {target : Value} {β : Type}
      {x : Run β} {pending : List Layer} {error : RuntimeError},
    Entered steps turns b image catching.host catching.initial target i →
    Active x j (execBlock (callWithin (steps + 1)) turns image.heap.scopes.size catching.stmts) i
      pending →
    x j = .error (.failed error) k → Unwinds pending k last →
    evalExpr (callWithin (steps + 1)) turns b catching.code image = .error (.failed error) last
  /-- Where no active `CATCH` is for the tag, the exit is what a whole run ends with. -/
  unmatched : ∀ {steps turns d : Nat} {α : Type} {run : Run α} {i j j' later last : Image}
      {thrown payload : Value} {pending : List Layer},
    Active (evalExpr (callWithin (steps + 1)) turns d throwing.code) j run i pending →
    Entered steps turns d j throwing.host throwing.initial thrown j' →
    evalExpr (callWithin (steps + 1)) turns j.heap.scopes.size throwing.bundle
      (Image.moreStrings j' 1) = .ok payload later →
    Passes .catching thrown later.heap.transfers.size pending (thrownImage later thrown payload)
      last →
    ∃ interrupt, run i = .error interrupt last ∧ interrupt.asError last =
      .unmatchedTransfer .catching ((transferLabel later thrown).getD (last.print thrown))

/-- A `THROW` evaluates its tag and then its result, and control resumes at the innermost active
`CATCH` whose tag is the same. -/
theorem throw_resumes_innermost_catch
    (isCatch : IsForm s.image.heap .catching (tag :: body) form) (standing : Standing context s)
    (compiled : compileWithin (depth + 1) context form s = .ok code s')
    (isThrow : IsForm t.image.heap .throwing [tag', result] form') (standing' : Standing context' t)
    (compiled' : compileWithin (depth' + 1) context' form' t = .ok code' t') :
    ∃ (catching : CatchParts depth context tag body s s')
      (throwing : ThrowParts depth' context' tag' result t t'),
      code = catching.code ∧ code' = throwing.code ∧ Meets catching throwing := by
  obtain ⟨catching, rfl⟩ := compile_catch isCatch compiled
  obtain ⟨throwing, rfl⟩ := compile_throw isThrow compiled'
  have catcher := catching.holding standing
  have thrower := throwing.holding standing'
  have thrown_by : ∀ {steps turns d : Nat} {j j' later : Image} {thrown payload : Value},
      Entered steps turns d j throwing.host throwing.initial thrown j' →
      evalExpr (callWithin (steps + 1)) turns j.heap.scopes.size throwing.bundle
        (Image.moreStrings j' 1) = .ok payload later →
      evalExpr (callWithin (steps + 1)) turns d throwing.code j =
        .error (.thrown (.transfer later.heap.transfers.size))
          (thrownImage later thrown payload) := by
    intro steps turns d j j' later thrown payload entered done
    rw [ThrowParts.code, thrower_eval entered thrower, done]
  refine ⟨catching, throwing, rfl, rfl, ?_⟩
  constructor
  case tag_interrupted => exact thrower_tag_fails
  case throws => exact fun entered => thrower_eval entered thrower
  case resumes =>
    intro steps turns b steps' turns' d image i j j' later last target thrown acceptor payload
      values pending entered accepts active entered' done carries passes
    have leaves : Leaves (thrownImage later thrown payload).heap .catching thrown _ :=
      throwing_leaves later _
    obtain ⟨crosses, adds⟩ := passes.crosses leaves
    have ended := active.crosses (thrown_by entered' done) crosses
    have arrived := leaves.later adds
    have payload_eq : (last.heap.transfer later.heap.transfers.size).payload = payload := by
      rw [adds.transfer leaves.bound, thrownImage, throwing_transfer]
    have carried : Carries last.heap (last.heap.transfer later.heap.transfers.size).payload
        values := by
      rw [payload_eq]
      exact carries.later ((throwing_adds later _).trans adds)
    rw [CatchParts.code, interceptor_of_thrown entered catcher ended, arrived.isFor_eq,
      deliver_result entered catcher accepts ended carried]
    rfl
  case nests => exact fun entered active => .interceptor entered catcher active
  case fails =>
    intro steps turns b image i j k last target β x pending error entered active failed unwinds
    exact interceptor_of_failed entered catcher (active.crosses failed (unwinds.crosses error))
      nofun
  case unmatched =>
    intro steps turns d α run i j j' later last thrown payload pending active entered done passes
    have leaves : Leaves (thrownImage later thrown payload).heap .catching thrown _ :=
      throwing_leaves later _
    obtain ⟨crosses, adds⟩ := passes.crosses leaves
    refine ⟨_, active.crosses (thrown_by entered done) crosses, ?_⟩
    rw [Interrupt.asError, adds.transfer leaves.bound, thrownImage, throwing_transfer]

/-- The cells of `(CATCH 1 (THROW 1 2))`. -/
def caughtCells : List Cell :=
  [⟨.symbol SpecialForm.catching.symbol, .cons 1⟩, ⟨.number 1, .cons 2⟩, ⟨.cons 3, .nil⟩,
    ⟨.symbol SpecialForm.throwing.symbol, .cons 4⟩, ⟨.number 1, .cons 5⟩, ⟨.number 2, .nil⟩]

theorem throw_resumes_catch_of_number :
    let s := CompileState.reading caughtCells
    IsForm s.image.heap .catching [.number 1, .cons 3] (.cons 0) ∧
      IsForm s.image.heap .throwing [.number 1, .number 2] (.cons 3) ∧
      ∃ code s' code' t', compileWithin 4 .toplevel (.cons 0) s = .ok code s' ∧
        compileWithin 3 .toplevel (.cons 3) s = .ok code' t' ∧
        ∃ (catching : CatchParts 3 .toplevel (.number 1) [.cons 3] s s')
          (throwing : ThrowParts 2 .toplevel (.number 1) (.number 2) s t'),
          code = catching.code ∧ code' = throwing.code ∧ Meets catching throwing := by
  intro s
  have isCatch : IsForm s.image.heap .catching [.number 1, .cons 3] (.cons 0) :=
    ⟨0, rfl, rfl, rfl⟩
  have isThrow : IsForm s.image.heap .throwing [.number 1, .number 2] (.cons 3) :=
    ⟨3, rfl, rfl, rfl⟩
  have standing : Standing .toplevel s := CompileState.standing_reading caughtCells
  have compiled : ∃ code s', compileWithin 4 .toplevel (.cons 0) s = .ok code s' := ⟨_, _, rfl⟩
  have compiled' : ∃ code s', compileWithin 3 .toplevel (.cons 3) s = .ok code s' := ⟨_, _, rfl⟩
  obtain ⟨code, s', compiled⟩ := compiled
  obtain ⟨code', t', compiled'⟩ := compiled'
  exact ⟨isCatch, isThrow, code, s', code', t', compiled, compiled',
    throw_resumes_innermost_catch isCatch standing compiled isThrow standing compiled'⟩

end Meeting

end LispScript
