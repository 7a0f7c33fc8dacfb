import LispScript.Proofs.Compilation
import LispScript.Proofs.FormEffects

/-!
`BLOCK` and `RETURN-FROM`. A `RETURN-FROM` evaluates its value and leaves the activation of the block
that it sees; handlers of other activations and of other forms let the exit pass. A block has its handler
if a `RETURN-FROM` that sees it was compiled, and else would be no different with it.
-/

namespace LispScript

open Script Compiler Machine Discipline

section Compilation

variable {context : Context} {s s' : CompileState} {depth : Nat} {form name value : Value}
  {body rest : List Value} {expr : Expr} {id : SymbolId}

/-- The parts of the code of a `BLOCK` form, made in order. -/
structure BlockParts (depth : Nat) (context : Context) (id : SymbolId) (body : List Value)
    (s s' : CompileState) where
  token : String
  binding : Binding
  stmts : List Stmt
  first : CompileState
  second : CompileState
  fresh : onCounters Counters.freshBlock s = .ok token first
  bound : newBinding (.ofSymbol id) .blocks (.block token context.manyValues) first =
    .ok binding second
  compiled : compileBody (compileWithin depth) (context.withEnv (binding :: context.env)) body
    second = .ok stmts s'

/-- Whether a `RETURN-FROM` the block was compiled. -/
def BlockParts.used (parts : BlockParts depth context id body s s') : Bool :=
  (s'.bindings.declared parts.binding).used

theorem BlockParts.reference (parts : BlockParts depth context id body s s') :
    parts.binding.reference = .block parts.token context.manyValues := by
  obtain ⟨token, binding, stmts, first, second, fresh, bound, compiled⟩ := parts
  cases bound
  rfl

/-- What a block makes of an exit to it. -/
def receivedValues (context : Context) : Expr :=
  if context.manyValues then .callRoutine .deliverValues [.ident "values", signalPayload]
  else signalPayload

/-- The code with the handler. -/
def BlockParts.code (parts : BlockParts depth context id body s s') : Expr :=
  interceptor parts.token (.array []) parts.stmts .block [.ret (receivedValues context)]

/-- The parts of the code of a `RETURN-FROM` form. -/
structure ReturnParts (depth : Nat) (context : Context) (manyValues : Bool) (value : Value)
    (binding : Binding) (s s' : CompileState) where
  payload : Expr
  text : String
  first : CompileState
  marked : markUsed binding s = .ok () first
  compiled : (if manyValues then compileBundle (compileWithin depth) context value
    else compileSingle (compileWithin depth) context value) first = .ok payload s'

theorem BlockParts.known (parts : BlockParts depth context id body s s') :
    parts.binding.declarations < parts.second.bindings.declarations.size := by
  obtain ⟨token, binding, stmts, first, second, fresh, bound, compiled⟩ := parts
  cases bound
  simp

/-- A `RETURN-FROM` that is compiled within the body makes use of the block. -/
theorem BlockParts.used_of_return {context' : Context} {t t' : CompileState} {depth' : Nat}
    {manyValues : Bool} (block : BlockParts depth context id body s s')
    (parts : ReturnParts depth' context' manyValues value block.binding t t')
    (before : Later block.second t) (after : Later t' s') : block.used = true := by
  have known := Nat.lt_of_lt_of_le block.known (before KeepsMarks).declarations
  have marked := markUsed_used known parts.marked
  have payload : KeepsMarks parts.first t' := by
    have compiled := parts.compiled
    split at compiled
    · exact (compileBundle_obeys (compileWithin_obeys depth') value).ended compiled
    · exact (compileSingle_obeys (compileWithin_obeys depth') value).ended compiled
  exact (payload.trans (after KeepsMarks)).used block.binding marked

theorem blockName_ok (done : blockName form name s = .ok id s') :
    name.asSymbol? = some id ∧ s' = s := by
  unfold blockName at done
  cases symbol : name.asSymbol? with
  | none =>
      rw [symbol] at done
      cases done
  | some found =>
      rw [symbol] at done
      cases done
      exact ⟨rfl, rfl⟩

theorem compile_block (isBlock : IsForm s.image.heap .block (name :: body) form)
    (compiled : compileWithin (depth + 1) context form s = .ok expr s') :
    ∃ id, name.asSymbol? = some id ∧ ∃ parts : BlockParts depth context id body s s',
      expr = if parts.used then parts.code else statementsExpr parts.stmts := by
  rw [compileWithin_special isBlock] at compiled
  simp only [compileSpecial, compileBlock] at compiled
  obtain ⟨id, s₁, named, onward⟩ := ok_of_bind compiled
  obtain ⟨symbol, rfl⟩ := blockName_ok named
  obtain ⟨token, s₂, fresh, compiled⟩ := ok_of_bind onward
  obtain ⟨binding, s₃, bound, compiled⟩ := ok_of_bind compiled
  obtain ⟨stmts, s₄, compiledBody, compiled⟩ := ok_of_bind compiled
  obtain ⟨declarations, s₅, asked, compiled⟩ := ok_of_bind compiled
  cases asked
  cases used : (s₄.bindings.declared binding).used with
  | false =>
      rw [used] at compiled
      cases compiled
      refine ⟨id, symbol, ⟨token, binding, stmts, s₂, s₃, fresh, bound, compiledBody⟩, ?_⟩
      simp only [BlockParts.used, used, Bool.false_eq_true, if_false]
  | true =>
      rw [used] at compiled
      cases compiled
      refine ⟨id, symbol, ⟨token, binding, stmts, s₂, s₃, fresh, bound, compiledBody⟩, ?_⟩
      simp only [BlockParts.used, used, if_true]
      rfl

theorem compile_returnFrom {token : String} {manyValues : Bool} {binding : Binding}
    (isReturn : IsForm s.image.heap .returnFrom (name :: rest) form)
    (symbol : name.asSymbol? = some id)
    (found : context.env.lookup? (.ofSymbol id) .blocks = some binding)
    (reference : binding.reference = .block token manyValues)
    (compiled : compileWithin (depth + 1) context form s = .ok expr s') :
    ∃ parts : ReturnParts depth context manyValues (rest.headD .nil) binding s s',
      expr = raiseTransfer .block (.ident token) parts.payload (.string parts.text) := by
  rw [compileWithin_special isReturn] at compiled
  simp only [compileSpecial, compileReturnFrom] at compiled
  have tooMany : rest.length ≤ 1 := by
    by_contra more
    rw [if_pos (by simp; omega)] at compiled
    obtain ⟨_, _, failed, -⟩ := ok_of_bind compiled
    cases failed
  rw [if_neg (by simp; omega)] at compiled
  obtain ⟨id', s₂, named, onward⟩ := ok_of_bind compiled
  obtain ⟨symbol', rfl⟩ := blockName_ok named
  obtain rfl := Option.some.inj (symbol.symm.trans symbol')
  simp only [found] at onward
  obtain ⟨_, s₃, marked, compiled⟩ := ok_of_bind onward
  simp only [reference] at compiled
  cases manyValues with
  | true =>
      obtain ⟨payload, s₄, compiledPayload, compiled⟩ := ok_of_bind compiled
      obtain ⟨text, s₅, asked, compiled⟩ := ok_of_bind compiled
      cases asked
      cases compiled
      exact ⟨⟨payload, _, s₃, marked, compiledPayload⟩, rfl⟩
  | false =>
      obtain ⟨payload, s₄, compiledPayload, compiled⟩ := ok_of_bind compiled
      obtain ⟨text, s₅, asked, compiled⟩ := ok_of_bind compiled
      cases asked
      cases compiled
      exact ⟨⟨payload, _, s₃, marked, compiledPayload⟩, rfl⟩

/-- The variable that identifies a run of a block is new, and its body leaves it alone. -/
theorem BlockParts.holding (parts : BlockParts depth context id body s s')
    (standing : Standing context s) :
    Holding parts.token (.array []) parts.stmts ∧ parts.token ≠ "arguments" := by
  have made : Made s.counters parts.first.counters parts.token := by
    obtain ⟨changed, token_eq, first_eq⟩ := onCounters_ok parts.fresh
    have later : s.counters.blocks < next s.counters.blocks :=
      lt_next standing.sparing.bounded.blocks fun same =>
        changed (congrArg (fun n => { s.counters with blocks := n }) same)
    rw [token_eq, first_eq]
    exact .block _ later (Nat.le_refl _)
  have since : Since s parts.first (kept parts.token) := .one _ made
  obtain ⟨-, sparing⟩ := Sparing.after .freshBlock standing.sparing parts.fresh
  have steps : ∀ {spared : String → Prop}, Apart spared context.env →
      Spares spared (newBinding (.ofSymbol id) .blocks (.block parts.token context.manyValues) >>=
        fun binding => compileBody (compileWithin depth)
          (context.withEnv (binding :: context.env)) body)
        fun stmts => Free spared (Stmt.assignedAll stmts) := fun apart =>
    .bind (.newBinding _ _ _) fun binding reference =>
      compileBody_spares (compileWithin_spares depth) (apart.cons fun name host => by
        rw [reference] at host
        cases host) body
  have done : (newBinding (.ofSymbol id) .blocks (.block parts.token context.manyValues) >>=
      fun binding => compileBody (compileWithin depth)
        (context.withEnv (binding :: context.env)) body) parts.first = .ok parts.stmts s' := by
    change EStateM.bind _ _ parts.first = _
    rw [EStateM.bind, parts.bound]
    exact parts.compiled
  have free := standing.code since sparing steps done
  refine ⟨holding_of_made made free_nil free ?_, fun same => made.unreserved (by rw [same]; decide)⟩
  rw [compileBody_declared parts.compiled]
  exact free_nil

/-- What a `RETURN-FROM` computes leaves the acceptors of functions alone. -/
theorem ReturnParts.clear {manyValues : Bool} {binding : Binding}
    (parts : ReturnParts depth context manyValues value binding s s')
    (standing : Standing context s) : "values" ∉ parts.payload.assigned := by
  obtain ⟨-, sparing⟩ := Sparing.after (.markUsed binding) standing.sparing parts.marked
  have since : Since s parts.first (· = "values") := ⟨rfl, fun _ same => .inl same⟩
  have spares : Apart (· = "values") context.env → Spares (· = "values")
      (if manyValues then compileBundle (compileWithin depth) context value
        else compileSingle (compileWithin depth) context value)
      fun code => Free (· = "values") code.assigned := by
    intro apart
    split
    · exact compileBundle_spares (compileWithin_spares depth) apart value
    · exact compileSingle_spares (compileWithin_spares depth) apart value
  exact fun member => standing.code since sparing spares parts.compiled _ member rfl

end Compilation

section Activations

variable {context context' : Context} {s s' t t' : CompileState} {depth depth' : Nat}
  {form form' name name' : Value} {body rest : List Value} {code code' : Expr} {id id' : SymbolId}

/-- Code that runs statements with nothing around them. -/
def RunsBare (stmts : List Stmt) (code : Expr) : Prop :=
  stmts = [.ret code] ∨
    ∀ (call : Caller) (turns b : Nat) (image : Image), evalExpr call turns b code image =
      (execBlock call turns image.heap.scopes.size stmts >>= resultOf) (image.inside b)

theorem statementsExpr_runsBare (stmts : List Stmt) : RunsBare stmts (statementsExpr stmts) := by
  unfold statementsExpr
  split
  · exact .inl rfl
  · exact .inr fun call turns b image => evalExpr_wrap call turns _

/-- What a block ends with whose body does not exit to it. -/
def handedOn (c : Nat) : EStateM.Result Interrupt Image Value → EStateM.Result Interrupt Image Value
  | .error (.thrown (.transfer a)) k => .error (.thrown (.transfer a)) (handlerImage k c a)
  | result => result

/-- The body does not refer to the activation: its code is in order where the variable is that of no
block. -/
structure BlockParts.Unreferenced (block : BlockParts depth context id body s s') (frame : Frame) :
    Prop where
  token : frame.inside.Fresh block.token
  body : ∃ kind, Derivable ((frame.inside.bind block.token .tagbody).pend [block.token])
    (.returns block.stmts kind)

/-- How a `RETURN-FROM` leaves a block. -/
structure Leaving (block : BlockParts depth context id body s s') (payload : Expr) (text : String)
    (code' : Expr) : Prop where
  /-- The value comes first: where it is interrupted, so is the `RETURN-FROM`. -/
  value_interrupted : ∀ {steps turns d : Nat} {j k : Image} {target : Value} {interrupt : Interrupt},
    Ordered j.heap → d < j.heap.scopes.size → j.heap.lookupVariable? d block.token = some target →
    evalExpr (callWithin (steps + 1)) turns j.heap.scopes.size payload
      (Image.moreStrings (j.inside d) 1) = .error interrupt k →
    evalExpr (callWithin (steps + 1)) turns d code' j = .error interrupt k
  /-- With the value, the `RETURN-FROM` exits to the activation that it sees. -/
  exits : ∀ {steps turns d : Nat} {j later : Image} {target value : Value},
    Ordered j.heap → d < j.heap.scopes.size → j.heap.lookupVariable? d block.token = some target →
    evalExpr (callWithin (steps + 1)) turns j.heap.scopes.size payload
      (Image.moreStrings (j.inside d) 1) = .ok value later →
    evalExpr (callWithin (steps + 1)) turns d code' j =
      .error (.thrown (.transfer later.heap.transfers.size))
        (raisedImage later .block target value text)
  /-- An exit that arrives at its activation makes its values those of the block. -/
  resumes : ∀ {steps turns b steps' turns' d : Nat} {image i j later last : Image}
      {target acceptor value : Value} {values : List Value} {pending : List Layer},
    Entered steps turns b image block.token (.array []) target i →
    Accepts context image.heap b acceptor →
    Active (evalExpr (callWithin (steps' + 1)) turns' d code') j
      (execBlock (callWithin (steps + 1)) turns image.heap.scopes.size block.stmts) i pending →
    Ordered j.heap → d < j.heap.scopes.size → j.heap.lookupVariable? d block.token = some target →
    evalExpr (callWithin (steps' + 1)) turns' j.heap.scopes.size payload
      (Image.moreStrings (j.inside d) 1) = .ok value later →
    Carries later.heap value values →
    Passes .block target later.heap.transfers.size pending
      (raisedImage later .block target value text) last →
    evalExpr (callWithin (steps + 1)) turns b block.code image =
      let resumed := handlerImage last image.heap.scopes.size later.heap.transfers.size
      if context.manyValues then callWithin steps acceptor values resumed else .ok value resumed
  /-- An exit that goes past all that is pending around it has no target. -/
  unmatched : ∀ {steps turns d : Nat} {α : Type} {run : Run α} {i j later last : Image}
      {target value : Value} {pending : List Layer},
    Active (evalExpr (callWithin (steps + 1)) turns d code') j run i pending →
    Ordered j.heap → d < j.heap.scopes.size → j.heap.lookupVariable? d block.token = some target →
    evalExpr (callWithin (steps + 1)) turns j.heap.scopes.size payload
      (Image.moreStrings (j.inside d) 1) = .ok value later →
    Passes .block target later.heap.transfers.size pending
      (raisedImage later .block target value text) last →
    ∃ interrupt, run i = .error interrupt last ∧
      interrupt.asError last = .unmatchedTransfer .block text

/-- How the activations of a block with a handler run. -/
structure Delimits (block : BlockParts depth context id body s s') : Prop where
  /-- An activation begins with a vector that identifies it. -/
  enters : ∀ {steps turns b : Nat} {image : Image}, Ordered image.heap →
    b < image.heap.scopes.size →
    ∃ i, Entered steps turns b image block.token (.array [])
      (.vector (image.heap.vectors.size + 1)) i
  /-- Without an exit the block ends as its body does. -/
  completes : ∀ {steps turns b : Nat} {image i k : Image} {target : Value} {flow : Flow},
    Entered steps turns b image block.token (.array []) target i →
    execBlock (callWithin (steps + 1)) turns image.heap.scopes.size block.stmts i = .ok flow k →
    evalExpr (callWithin (steps + 1)) turns b block.code image = resultOf flow k
  /-- Exits that are not for the activation pass. -/
  passes : ∀ {steps turns b : Nat} {image i k : Image} {target : Value} {a : Address},
    Entered steps turns b image block.token (.array []) target i →
    execBlock (callWithin (steps + 1)) turns image.heap.scopes.size block.stmts i =
      .error (.thrown (.transfer a)) k →
    isFor .block target (k.heap.transfer a) = false →
    evalExpr (callWithin (steps + 1)) turns b block.code image =
      .error (.thrown (.transfer a)) (handlerImage k image.heap.scopes.size a)
  /-- An exit to one activation passes every other, of this block or of another. -/
  spares : ∀ {steps turns b steps' turns' b' : Nat} {token : String}
      {image i image' i' k : Image} {target target' : Value} {a : Address},
    Entered steps turns b image block.token (.array []) target i →
    Entered steps' turns' b' image' token (.array []) target' i' →
    Adds i image' ∨ Adds i' image →
    execBlock (callWithin (steps + 1)) turns image.heap.scopes.size block.stmts i =
      .error (.thrown (.transfer a)) k →
    (k.heap.transfer a).target = target' →
    evalExpr (callWithin (steps + 1)) turns b block.code image =
      .error (.thrown (.transfer a)) (handlerImage k image.heap.scopes.size a)
  /-- Failures pass. -/
  fails : ∀ {steps turns b : Nat} {image i k : Image} {target : Value} {interrupt : Interrupt},
    Entered steps turns b image block.token (.array []) target i →
    execBlock (callWithin (steps + 1)) turns image.heap.scopes.size block.stmts i =
      .error interrupt k → (∀ thrown, interrupt ≠ .thrown thrown) →
    evalExpr (callWithin (steps + 1)) turns b block.code image = .error interrupt k
  /-- An active block is one of those that an exit from inside has to go past. -/
  nests : ∀ {steps turns b : Nat} {image i j : Image} {target : Value} {β : Type} {x : Run β}
      {pending : List Layer},
    Entered steps turns b image block.token (.array []) target i →
    Active x j (execBlock (callWithin (steps + 1)) turns image.heap.scopes.size block.stmts) i
      pending →
    Active x j (evalExpr (callWithin (steps + 1)) turns b block.code) image
      (pending ++ [.exit image.heap.scopes.size .block target])

/-- No two activations are identified by the same vector. -/
theorem Entered.distinct {steps turns b steps' turns' b' : Nat} {token token' : String}
    {image i image' i' : Image} {target target' : Value}
    (entered : Entered steps turns b image token (.array []) target i)
    (entered' : Entered steps' turns' b' image' token' (.array []) target' i')
    (later : Adds i image' ∨ Adds i' image) : target'.strictEq target = false := by
  obtain ⟨rfl, bound⟩ := entered.vector
  obtain ⟨rfl, bound'⟩ := entered'.vector
  rw [← Bool.not_eq_true, strictEq_vector]
  intro same
  have equal : image'.heap.vectors.size + 1 = image.heap.vectors.size + 1 := Value.vector.inj same
  rcases later with adds | adds
  · have grown := adds.vectors
    omega
  · have grown := adds.vectors
    omega

variable {block : BlockParts depth context id body s s'}

/-- Where no `RETURN-FROM` has marked the block as used, its body does not refer to the activation. -/
theorem BlockParts.unreferenced {W : World} {late : CompileState} {frame : Frame} {manyValues : Bool}
    (block : BlockParts depth context id body s s') (unused : block.used = false)
    (ok : CompilerOk W s) (env : EnvOk W s context.env) (data : W.Data body)
    (progress : Progress s' late) (serves : frame.Serves context.env s.counters late)
    (accepts : frame.Accepts context.acceptor manyValues) : block.Unreferenced frame := by
  obtain ⟨W₁, step₁, ok₁, made⟩ := (Built.freshBlock ok).ended block.fresh
  have plain : ReferenceOk W₁ (.block block.token context.manyValues) := trivial
  obtain ⟨W₂, step₂, ok₂, new⟩ := (Built.newBinding ok₁ _ _ plain).ended block.bound
  have before := step₁.trans step₂
  have env₂ : EnvOk W₂ block.second (context.withEnv (block.binding :: context.env)).env :=
    List.forall_mem_cons.mpr ⟨new.ok, env.further before⟩
  obtain ⟨W₃, step₃, ok₃, delivers⟩ :=
    (Built.compileBody (CompilesForms.within depth) ok₂ env₂ (before.data data)).ended block.compiled
  have inner := Frame.ServesBut.inside serves
  have within := ((step₂.trans step₃).progress.trans progress).counters
  have fresh := Frame.Serves.fresh inner (made.left within)
  obtain ⟨serves₁, has⟩ := Frame.Serves.bind inner made step₁.progress.counters within .tagbody
  have accepts₁ := (Frame.Later.bind fresh.1 List.not_mem_nil .tagbody : Frame.Later [] _ _).accepts
    accepts.inside
  -- The body makes no use of the block, whatever the code after it does.
  have serves₂ := ((serves₁.pend [block.token]).later step₂.progress.counters).earlier progress
  refine ⟨fresh, _, delivers s' _ (Progress.refl s') (serves₂.cons ?_) manyValues accepts₁⟩
  rw [Asks, new.reference_eq]
  intro _ used
  rw [← BlockParts.used, unused] at used
  cases used

/-- A body that does not refer to the activation is left as if there were no handler. -/
theorem BlockParts.Unreferenced.runs {W : World} {frame : Frame} {b : Nat} {image : Image}
    (unreferenced : block.Unreferenced frame) (holding : Holding block.token (.array []) block.stmts)
    (describes : W.Describes image) (admits : W.Admits frame b) (ordered : Ordered image.heap)
    (steps turns : Nat) :
    ∃ i, Entered steps turns b image block.token (.array [])
        (.vector (image.heap.vectors.size + 1)) i ∧
      evalExpr (callWithin (steps + 1)) turns b block.code image =
        handedOn image.heap.scopes.size ((execBlock (callWithin (steps + 1)) turns
          image.heap.scopes.size block.stmts >>= resultOf) i) := by
  -- As the identity of a tagbody, which no exit of a `RETURN-FROM` can have as its target.
  obtain ⟨W₁, i, entered, extends₁, describes₁, own₁, token⟩ := describes.entering admits ordered
    unreferenced.token (show Kind.tagbody.IsToken from trivial) steps turns
  have other : ∀ targetKind carried, Handles .block targetKind carried →
      targetKind.IsToken ∧ targetKind ≠ .tagbody := by
    rintro _ _ ⟨⟩
    exact ⟨trivial, fun same => by cases same⟩
  obtain ⟨kind, derivable⟩ := unreferenced.body
  have sound : StmtSound (callWithin (steps + 1)) turns _ block.stmts kind :=
    derivable.sound (callWithin_sound (steps + 1))
  have ends := sound W W₁ i _ extends₁ describes₁ own₁
  refine ⟨i, entered, ?_⟩
  change _ = handedOn _ (EStateM.bind _ _ i)
  rw [EStateM.bind]
  cases ended : execBlock (callWithin (steps + 1)) turns image.heap.scopes.size block.stmts i with
  | ok flow k =>
      rw [ended] at ends
      obtain ⟨value, rfl⟩ : ∃ value, flow = .returned value := by
        cases ends with
        | ok W' extends_ leads described settled held => exact ⟨held.choose, held.choose_spec.1⟩
      exact interceptor_of_ok entered holding ended
  | error interrupt k =>
      rw [ended] at ends
      cases ends with
      | thrown W' extends_ leads described fresh signal settled =>
          have passes := (leads.grows.isToken token).not_meant other described signal
          exact (interceptor_of_thrown entered holding ended).trans (if_neg (by simp [passes]))
      | failed W' extends_ leads described isLanguage =>
          exact interceptor_of_failed entered holding ended fun _ same => by cases same
      | outOfSteps W' extends_ leads described =>
          exact interceptor_of_failed entered holding ended fun _ same => by cases same

theorem BlockParts.leaving (block : BlockParts depth context id body s s')
    (standing : Standing context s) {payload : Expr} {text : String}
    (clear : "values" ∉ payload.assigned) :
    Leaving block payload text
      (raiseTransfer .block (.ident block.token) payload (.string text)) := by
  obtain ⟨holding, token_ne⟩ := block.holding standing
  have thrown_by : ∀ {steps turns d : Nat} {j later : Image} {target value : Value},
      Ordered j.heap → d < j.heap.scopes.size →
      j.heap.lookupVariable? d block.token = some target →
      evalExpr (callWithin (steps + 1)) turns j.heap.scopes.size payload
        (Image.moreStrings (j.inside d) 1) = .ok value later →
      evalExpr (callWithin (steps + 1)) turns d
        (raiseTransfer .block (.ident block.token) payload (.string text)) j =
        .error (.thrown (.transfer later.heap.transfers.size))
          (raisedImage later .block target value text) := by
    intro steps turns d j later target value ordered bound seen done
    rw [raise_eval ordered bound token_ne clear seen, done]
  constructor
  case value_interrupted =>
    intro steps turns d j k target interrupt ordered bound seen failed
    rw [raise_eval ordered bound token_ne clear seen, failed]
  case exits => exact thrown_by
  case resumes =>
    intro steps turns b steps' turns' d image i j later last target acceptor value values pending
      entered accepts active ordered bound seen done carries passes
    have leaves : Leaves (raisedImage later .block target value text).heap .block target
        later.heap.transfers.size := throwing_leaves _ _
    obtain ⟨crosses, adds⟩ := passes.crosses leaves
    have ended := active.crosses (thrown_by ordered bound seen done) crosses
    have arrived := leaves.later adds
    have payload_eq : (last.heap.transfer later.heap.transfers.size).payload = value := by
      rw [adds.transfer leaves.bound]
      exact congrArg Transfer.payload (throwing_transfer _ _)
    have meant : isFor .block target (last.heap.transfer later.heap.transfers.size) = true := by
      obtain ⟨rfl, -⟩ := entered.vector
      rw [arrived.isFor_eq, strictEq_vector.mpr rfl]
      rfl
    rw [BlockParts.code, interceptor_of_thrown entered holding ended, if_pos meant]
    by_cases many : context.manyValues = true
    · have carried : Carries last.heap (last.heap.transfer later.heap.transfers.size).payload
          values := by
        rw [payload_eq]
        have named : Adds later (Image.moreStrings later 1) :=
          ⟨.refl _, fun _ _ held => held, Nat.le_refl _, .refl _, .refl _⟩
        exact carries.later ((named.trans (throwing_adds _ _)).trans adds)
      have result : receivedValues context =
          .callRoutine .deliverValues [context.acceptor, signalPayload] := by
        rw [receivedValues, if_pos many, Context.acceptor, if_pos many]
      rw [result, deliver_result entered holding accepts ended carried, if_pos many]
    · rw [receivedValues, if_neg many, if_neg many, return_result, evalExpr_signalPayload,
        payload_eq]
  case unmatched =>
    intro steps turns d α run i j later last target value pending active ordered bound seen done
      passes
    have leaves : Leaves (raisedImage later .block target value text).heap .block target
        later.heap.transfers.size := throwing_leaves _ _
    obtain ⟨crosses, adds⟩ := passes.crosses leaves
    refine ⟨_, active.crosses (thrown_by ordered bound seen done) crosses, ?_⟩
    have raised : (last.heap.transfer later.heap.transfers.size) =
        ⟨.block, target, value, some text⟩ := by
      rw [adds.transfer leaves.bound]
      exact throwing_transfer _ _
    rw [Interrupt.asError, raised]
    rfl

theorem BlockParts.delimits (block : BlockParts depth context id body s s')
    (standing : Standing context s) : Delimits block := by
  obtain ⟨holding, -⟩ := block.holding standing
  have foreign : ∀ {steps turns b : Nat} {image i k : Image} {target : Value} {a : Address},
      Entered steps turns b image block.token (.array []) target i →
      execBlock (callWithin (steps + 1)) turns image.heap.scopes.size block.stmts i =
        .error (.thrown (.transfer a)) k →
      isFor .block target (k.heap.transfer a) = false →
      evalExpr (callWithin (steps + 1)) turns b block.code image =
        .error (.thrown (.transfer a)) (handlerImage k image.heap.scopes.size a) := by
    intro steps turns b image i k target a entered ended other
    exact (interceptor_of_thrown entered holding ended).trans (if_neg (by simp [other]))
  constructor
  case enters => exact fun ordered bound => ⟨_, .begin _ _ _ ordered bound⟩
  case completes => exact fun entered ended => interceptor_of_ok entered holding ended
  case passes => exact foreign
  case spares =>
    intro steps turns b steps' turns' b' token image i image' i' k target target' a entered entered'
      apart ended aims
    refine foreign entered ended ?_
    rw [isFor, aims, entered.distinct entered' apart, Bool.and_false]
  case fails => exact fun entered ended failure => interceptor_of_failed entered holding ended failure
  case nests => exact fun entered active => .interceptor entered holding active

/-- The code of a block without its handler, for which nothing would be different with it: where the
code delivers its values, an activation with a handler hands on whatever its body ends with. -/
structure Unhandled (block : BlockParts depth context id body s s') (code : Expr) : Prop where
  bare : RunsBare block.stmts code
  idle : ∀ {W : World} {image : Image} {b : Nat} (steps turns : Nat), CompilerOk W s →
    EnvOk W s context.env → DeliversIn context s s' image b → Ordered image.heap →
    ∃ i, Entered steps turns b image block.token (.array [])
        (.vector (image.heap.vectors.size + 1)) i ∧
      evalExpr (callWithin (steps + 1)) turns b block.code image =
        handedOn image.heap.scopes.size ((execBlock (callWithin (steps + 1)) turns
          image.heap.scopes.size block.stmts >>= resultOf) i)

theorem BlockParts.unhandled (block : BlockParts depth context id body s s')
    (isBlock : IsForm s.image.heap .block (name :: body) form) (standing : Standing context s)
    (unused : block.used = false) : Unhandled block (statementsExpr block.stmts) := by
  refine ⟨statementsExpr_runsBare block.stmts, ?_⟩
  intro W image b steps turns ok env delivers ordered
  have data : W.Data body := (World.data_cons.mp (isBlock.data ok.describes)).2
  obtain ⟨W', late, frame, manyValues, progress, serves, accepts, describes, admits⟩ := delivers
  exact (block.unreferenced unused ok env data progress serves accepts).runs
    (block.holding standing).1 describes admits ordered steps turns

/-- A `RETURN-FROM` leaves the activation of the innermost block of its name that it sees, and no
other. The block has its handler if such a form was compiled within it, and no need of one if none
was. -/
theorem returnFrom_leaves_activation (isBlock : IsForm s.image.heap .block (name :: body) form)
    (standing : Standing context s)
    (compiled : compileWithin (depth + 1) context form s = .ok code s') :
    ∃ id, name.asSymbol? = some id ∧ ∃ block : BlockParts depth context id body s s',
      Delimits block ∧
      (∀ {context' : Context} {t t' : CompileState} {depth' : Nat} {form' name' : Value}
          {rest : List Value} {code' : Expr} {id' : SymbolId},
        IsForm t.image.heap .returnFrom (name' :: rest) form' → Standing context' t →
        name'.asSymbol? = some id' →
        context'.env.lookup? (.ofSymbol id') .blocks = some block.binding →
        compileWithin (depth' + 1) context' form' t = .ok code' t' →
        (∃ parts : ReturnParts depth' context' context.manyValues (rest.headD .nil) block.binding
          t t', Leaving block parts.payload parts.text code') ∧
        (Later block.second t → Later t' s' → block.used = true ∧ code = block.code)) ∧
      if block.used then code = block.code else Unhandled block code := by
  obtain ⟨id, symbol, block, code_eq⟩ := compile_block isBlock compiled
  refine ⟨id, symbol, block, block.delimits standing, ?_, ?_⟩
  · intro context' t t' depth' form' name' rest code' id' isReturn standing' symbol' found compiled'
    obtain ⟨parts, rfl⟩ := compile_returnFrom isReturn symbol' found block.reference compiled'
    refine ⟨⟨parts, block.leaving standing (parts.clear standing')⟩, fun before after => ?_⟩
    have used := block.used_of_return parts before after
    rw [if_pos used] at code_eq
    exact ⟨used, code_eq⟩
  · cases used : block.used with
    | true => rwa [used, if_pos rfl] at code_eq
    | false =>
        rw [used, if_neg Bool.false_ne_true] at code_eq
        rw [code_eq, if_neg Bool.false_ne_true]
        exact block.unhandled isBlock standing used

/-- The cells of `(BLOCK NIL (RETURN-FROM NIL 1))`. -/
def returningCells : List Cell :=
  [⟨.symbol SpecialForm.block.symbol, .cons 1⟩, ⟨.nil, .cons 2⟩, ⟨.cons 3, .nil⟩,
    ⟨.symbol SpecialForm.returnFrom.symbol, .cons 4⟩, ⟨.nil, .cons 5⟩, ⟨.number 1, .nil⟩]

theorem returnFrom_leaves_block_of_nil :
    let s := CompileState.reading returningCells
    IsForm s.image.heap .block [.nil, .cons 3] (.cons 0) ∧
      ∃ code s', compileWithin 4 .toplevel (.cons 0) s = .ok code s' ∧
        ∃ id, Value.nil.asSymbol? = some id ∧
          ∃ block : BlockParts 3 .toplevel id [.cons 3] s s', Delimits block ∧
            (∀ {context' : Context} {t t' : CompileState} {depth' : Nat} {form' name' : Value}
                {rest : List Value} {code' : Expr} {id' : SymbolId},
              IsForm t.image.heap .returnFrom (name' :: rest) form' → Standing context' t →
              name'.asSymbol? = some id' →
              context'.env.lookup? (.ofSymbol id') .blocks = some block.binding →
              compileWithin (depth' + 1) context' form' t = .ok code' t' →
              (∃ parts : ReturnParts depth' context' Context.toplevel.manyValues (rest.headD .nil)
                block.binding t t', Leaving block parts.payload parts.text code') ∧
              (Later block.second t → Later t' s' → block.used = true ∧ code = block.code)) ∧
            block.used = true ∧ code = block.code := by
  intro s
  have isBlock : IsForm s.image.heap .block [.nil, .cons 3] (.cons 0) := ⟨0, rfl, rfl, rfl⟩
  have compiled : ∃ code s', compileWithin 4 .toplevel (.cons 0) s = .ok code s' := ⟨_, _, rfl⟩
  obtain ⟨code, s', compiled⟩ := compiled
  obtain ⟨id, named, block, delimits, leaves, code_eq⟩ := returnFrom_leaves_activation isBlock
    (CompileState.standing_reading returningCells) compiled
  have used : block.used = true := by
    obtain ⟨token, binding, stmts, first, second, fresh, bound, compiledBody⟩ := block
    cases named
    cases fresh
    cases bound
    cases compiledBody
    rfl
  rw [if_pos used] at code_eq
  exact ⟨isBlock, code, s', compiled, id, named, block, delimits, leaves, used, code_eq⟩

end Activations

end LispScript
