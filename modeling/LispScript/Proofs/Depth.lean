import LispScript.Proofs.Additions

/-!
The depth of calls. A run counts the compiled functions that it is inside of, and the limit on their
number has no say in anything else: a run that never meets it goes the same way under any higher one.
-/

namespace LispScript

open Script

/-- The image with another limit on the depth of calls. -/
def Image.withLimit (image : Image) (limit : Nat) : Image := { image with depthLimit := limit }

namespace Machine

section Watching

/-- A run that stops at once, as if it were out of steps, where it would begin in a barred image. No
handler and no cleanup sees such a stop. -/
def unlessBarred (bars : Image → Bool) (run : Run α) : Run α := fun image =>
  if bars image then .error .outOfSteps image else run image

/-- Calls as they are made otherwise, but under watch: the run stops where a compiled function is
called from an image that `outside` bars, and where the body of one would begin in an image that
`inside` bars. -/
def callWatched (outside inside : Image → Bool) : Nat → Caller
  | 0, _, _ => throw .outOfSteps
  | steps + 1, function, args => do
      match function with
      | .function address =>
          match ((← Run.heap).function address).callable with
          | .closure params body scope =>
              unlessBarred outside <| counted <| unlessBarred inside do
                let inner ← openActivation scope params args
                resultOf (← execBlock (callWatched outside inside steps) steps inner body)
          | .native n => runNative (callWatched outside inside steps) n args
          | .primitive p => callPrimitive (callWatched outside inside steps) p args
      | other => do Run.fail (.notAFunction (← Run.describe other))

/-- The value of statements whose calls are made by the given caller. -/
def statementsBy (call : Caller) (turns : Nat) (last : Value) : List Stmt → Run Value
  | [] => return last
  | .effect value :: rest => do
      let value ← evalExpr call turns Image.globalScope value
      statementsBy call turns value rest
  | stmt :: rest => do
      match ← exec call turns Image.globalScope stmt with
      | .normal => statementsBy call turns last rest
      | .returned value => return value
      | .left _ => Run.fail (.host "break outside of a loop")

/-- A program that is run under watch. -/
def runWatched (outside inside : Image → Bool) (steps : Nat) (program : Program) : Run Value :=
  statementsBy (callWatched outside inside steps) steps .undefined program.body

def nowhere : Image → Bool := fun _ => false

theorem nowhere_not {image : Image} : nowhere image ≠ true := Bool.false_ne_true

/-- Where a call of a compiled function exhausts the stack. -/
def exhausted (image : Image) : Bool := image.depthLimit ≤ image.depth

/-- Where more compiled functions are running than there may be. -/
def overrun (image : Image) : Bool := image.depthLimit < image.depth

variable {outside inside : Image → Bool} {i : Image}

theorem unlessBarred_nowhere (run : Run α) : unlessBarred nowhere run = run := rfl

theorem callWatched_function (steps : Nat) (address : Address) (args : List Value) :
    callWatched outside inside (steps + 1) (.function address) args i =
      (match (i.heap.function address).callable with
        | .closure params body scope =>
            unlessBarred outside <| counted <| unlessBarred inside do
              let inner ← openActivation scope params args
              resultOf (← execBlock (callWatched outside inside steps) steps inner body)
        | .native n => runNative (callWatched outside inside steps) n args
        | .primitive p => callPrimitive (callWatched outside inside steps) p args) i := by
  rw [callWatched]
  rfl

/-- A watch that bars nothing makes no difference. -/
theorem callWatched_nowhere (steps : Nat) : callWatched nowhere nowhere steps = callWithin steps := by
  induction steps with
  | zero => rfl
  | succ steps ih =>
      funext function args i
      cases function with
      | function address =>
          rw [callWatched_function, callWithin_function, ih]
          rfl
      | _ => rfl

theorem statementsBy_callWithin (steps : Nat) (last : Value) (stmts : List Stmt) :
    statementsBy (callWithin steps) steps last stmts = runStatements steps last stmts := by
  fun_induction runStatements steps last stmts with
  | case1 last => rfl
  | case2 last value rest ih => simp only [statementsBy, ih]
  | case3 last stmt rest notEffect ih =>
      rw [statementsBy]
      · refine bind_congr fun flow => ?_
        cases flow with
        | normal => exact ih
        | returned value => rfl
        | left label => rfl
      · exact notEffect

theorem runWatched_nowhere (steps : Nat) (program : Program) :
    runWatched nowhere nowhere steps program = runWithin steps program := by
  rw [runWatched, runWithin, callWatched_nowhere, statementsBy_callWithin]

theorem composed_statements (turns : Nat) (last : Value) (stmts : List Stmt) :
    Composed fun call => statementsBy call turns last stmts := by
  induction stmts generalizing last with
  | nil => exact .pure _
  | cons stmt rest ih =>
      by_cases effect : ∃ value, stmt = .effect value
      · obtain ⟨value, rfl⟩ := effect
        exact .bind (composed_evalExpr value _) fun held => ih held
      · have onward : ∀ flow : Flow, Composed fun call => match flow with
            | .normal => statementsBy call turns last rest
            | .returned value => pure value
            | .left _ => Run.fail (.host "break outside of a loop") := by
          intro flow
          cases flow with
          | normal => exact ih last
          | returned value => exact .pure _
          | left label => exact .fail _
        have ran : Composed fun call => exec call turns Image.globalScope stmt :=
          composed_exec stmt _
        refine .congr (fun call => ?_) (ran.bind onward)
        rw [statementsBy]
        exact fun value same => effect ⟨value, same⟩

end Watching

section Following

/-- How two runs end, the second of which began as the first did but for the limit on the depth of
calls: alike in all but the limit, and as deep as they began. Where `stops` allows it, the first may
have been stopped instead. -/
inductive Follows (depth limit limit' : Nat) (stops : Prop) {α : Type} :
    EStateM.Result Interrupt Image α → EStateM.Result Interrupt Image α → Prop
  | ok {a : α} {j : Image} (sameDepth : j.depth = depth) (sameLimit : j.depthLimit = limit) :
      Follows depth limit limit' stops (.ok a j) (.ok a (j.withLimit limit'))
  | error {interrupt : Interrupt} {j : Image} (sameDepth : j.depth = depth)
      (sameLimit : j.depthLimit = limit) :
      Follows depth limit limit' stops (.error interrupt j) (.error interrupt (j.withLimit limit'))
  | stopped {j : Image} {other : EStateM.Result Interrupt Image α} (may : stops) :
      Follows depth limit limit' stops (.error .outOfSteps j) other

theorem Follows.self {depth limit : Nat} {stops : Prop}
    {result : EStateM.Result Interrupt Image α} (sameDepth : (imageOf result).depth = depth)
    (sameLimit : (imageOf result).depthLimit = limit) :
    Follows depth limit limit stops result result := by
  subst sameLimit
  cases result with
  | ok a j => exact .ok sameDepth rfl
  | error interrupt j => exact .error sameDepth rfl

/-- A run under one limit is followed by another run under another. -/
def Tracks (depth limit limit' : Nat) (stops : Prop) (run run' : Run α) : Prop :=
  ∀ i : Image, i.depth = depth → i.depthLimit = limit →
    Follows depth limit limit' stops (run i) (run' (i.withLimit limit'))

variable {depth limit limit' : Nat} {stops : Prop}

/-- What a cleanup makes of the outcome of the block before it. -/
theorem Follows.cleaned {cleanup cleanup' : Run Flow} {j : Image}
    {outcome : Image → EStateM.Result Interrupt Image Flow}
    (follows : Tracks depth limit limit' stops cleanup cleanup') (sameDepth : j.depth = depth)
    (sameLimit : j.depthLimit = limit)
    (again : ∀ k : Image, k.depth = depth → k.depthLimit = limit →
      Follows depth limit limit' stops (outcome k) (outcome (k.withLimit limit'))) :
    Follows depth limit limit' stops
      (match cleanup j with
        | .ok .normal k => outcome k
        | result => result)
      (match cleanup' (j.withLimit limit') with
        | .ok .normal k => outcome k
        | result => result) := by
  have follows := follows j sameDepth sameLimit
  generalize cleanup j = result at follows ⊢
  generalize cleanup' (j.withLimit limit') = result' at follows ⊢
  cases follows with
  | @ok flow k sameDepth sameLimit =>
      cases flow with
      | normal => exact again k sameDepth sameLimit
      | returned value => exact .ok sameDepth sameLimit
      | left label => exact .ok sameDepth sameLimit
  | error sameDepth sameLimit => exact .error sameDepth sameLimit
  | stopped may => exact .stopped may

namespace Tracks

theorem pure (a : α) : Tracks depth limit limit' stops (Pure.pure a) (Pure.pure a) :=
  fun _ sameDepth sameLimit => .ok sameDepth sameLimit

theorem interrupt (interrupt : Interrupt) :
    Tracks (α := α) depth limit limit' stops (throw interrupt) (throw interrupt) :=
  fun _ sameDepth sameLimit => .error sameDepth sameLimit

theorem onHeap (f : Heap → α × Heap) :
    Tracks depth limit limit' stops (Run.onHeap f) (Run.onHeap f) :=
  fun _ sameDepth sameLimit => .ok sameDepth sameLimit

theorem bind {first first' : Run α} {rest rest' : α → Run β}
    (before : Tracks depth limit limit' stops first first')
    (after : ∀ a, Tracks depth limit limit' stops (rest a) (rest' a)) :
    Tracks depth limit limit' stops (first >>= rest) (first' >>= rest') := by
  intro i sameDepth sameLimit
  change Follows _ _ _ _ (EStateM.bind first rest i) (EStateM.bind first' rest' _)
  rw [EStateM.bind, EStateM.bind]
  have follows := before i sameDepth sameLimit
  generalize first i = result at follows ⊢
  generalize first' (i.withLimit limit') = result' at follows ⊢
  cases follows with
  | ok sameDepth sameLimit => exact after _ _ sameDepth sameLimit
  | error sameDepth sameLimit => exact .error sameDepth sameLimit
  | stopped may => exact .stopped may

theorem handling {block block' : Run Flow} {handler handler' : Value → Run Flow}
    (blocked : Tracks depth limit limit' stops block block')
    (handled : ∀ thrown, Tracks depth limit limit' stops (handler thrown) (handler' thrown)) :
    Tracks depth limit limit' stops (handling block handler) (handling block' handler') := by
  intro i sameDepth sameLimit
  rw [Machine.handling, Machine.handling]
  have follows := blocked i sameDepth sameLimit
  generalize block i = result at follows ⊢
  generalize block' (i.withLimit limit') = result' at follows ⊢
  cases follows with
  | ok sameDepth sameLimit => exact .ok sameDepth sameLimit
  | @error interrupt j sameDepth sameLimit =>
      cases interrupt with
      | thrown value => exact handled value j sameDepth sameLimit
      | failed error => exact .error sameDepth sameLimit
      | outOfSteps => exact .error sameDepth sameLimit
  | stopped may => exact .stopped may

theorem ensuring {block block' cleanup cleanup' : Run Flow}
    (blocked : Tracks depth limit limit' stops block block')
    (cleaned : Tracks depth limit limit' stops cleanup cleanup') :
    Tracks depth limit limit' stops (ensuring block cleanup) (ensuring block' cleanup') := by
  intro i sameDepth sameLimit
  rw [Machine.ensuring, Machine.ensuring]
  have follows := blocked i sameDepth sameLimit
  generalize block i = result at follows ⊢
  generalize block' (i.withLimit limit') = result' at follows ⊢
  cases follows with
  | ok sameDepth sameLimit =>
      exact .cleaned cleaned sameDepth sameLimit fun k sameDepth sameLimit => .ok sameDepth sameLimit
  | @error interrupt j sameDepth sameLimit =>
      have again : ∀ k : Image, k.depth = depth → k.depthLimit = limit →
          Follows depth limit limit' stops (.error (α := Flow) interrupt k)
            (.error interrupt (k.withLimit limit')) :=
        fun k sameDepth sameLimit => .error sameDepth sameLimit
      cases interrupt with
      | thrown value => exact .cleaned cleaned sameDepth sameLimit again
      | failed error => exact .cleaned cleaned sameDepth sameLimit again
      | outOfSteps => exact .error sameDepth sameLimit
  | stopped may => exact .stopped may

end Tracks

/-- Elementary steps do not look at the limit. -/
theorem Elementary.tracks {step : Run α} (elementary : Elementary step) :
    Tracks depth limit limit' stops step step := by
  induction elementary with
  | pure a => exact .pure a
  | fail error => exact .interrupt (.failed error)
  | bind _ _ first second => exact .bind first second
  | @look _ f same =>
      intro i sameDepth sameLimit
      change Follows _ _ _ _ (.ok (f i) i) (.ok (f (i.withLimit limit')) (i.withLimit limit'))
      rw [← same i (i.withLimit limit') rfl rfl]
      exact .ok sameDepth sameLimit
  | onSymbols _ => exact fun _ sameDepth sameLimit => .ok sameDepth sameLimit
  | onHeap _ => exact .onHeap _

/-- Runs that differ in how their calls are made follow one another when their calls do. -/
theorem Composed.tracks {run : Caller → Run α} {call call' : Caller} (composed : Composed run)
    (calls : ∀ function args,
      Tracks depth limit limit' stops (call function args) (call' function args)) :
    Tracks depth limit limit' stops (run call) (run call') := by
  induction composed with
  | step elementary => exact elementary.tracks
  | onHeap _ => exact .onHeap _
  | interrupt interrupt => exact .interrupt interrupt
  | call function args => exact calls function args
  | bind _ _ before after => exact .bind before after
  | handling _ _ blocked handled => exact .handling blocked handled
  | ensuring _ _ blocked cleaned => exact .ensuring blocked cleaned

end Following

section Calling

variable {depth limit limit' : Nat} {stops : Prop} {outside inside : Image → Bool}

/-- A body that is watched and run one call deeper. Where the watch lets the call pass, it is within
both limits or in neither. -/
theorem Tracks.counted {run run' : Run α}
    (deeper : Tracks (depth + 1) limit limit' stops run run')
    (barred : ∀ i : Image, outside i = true → stops)
    (passes : ∀ i : Image, i.depth = depth → i.depthLimit = limit → outside i = false →
      (depth < limit ↔ depth < limit'))
    (within : ∀ i : Image, i.depth ≤ i.depthLimit → inside i = false) :
    Tracks depth limit limit' stops (unlessBarred outside (counted (unlessBarred inside run)))
      (Machine.counted run') := by
  intro i sameDepth sameLimit
  rw [unlessBarred]
  split
  · rename_i bars
    exact .stopped (barred i bars)
  · rename_i passed
    have both := passes i sameDepth sameLimit (Bool.eq_false_iff.mpr passed)
    rw [Machine.counted, Machine.counted]
    by_cases room : depth < limit
    · have room' : (i.withLimit limit').depth < (i.withLimit limit').depthLimit :=
        sameDepth ▸ both.mp room
      have entered : unlessBarred inside run { i with depth := i.depth + 1 } =
          run { i with depth := i.depth + 1 } := by
        rw [unlessBarred, within _ (by rw [sameDepth, sameLimit]; exact room)]
        rfl
      rw [if_pos (sameDepth ▸ sameLimit ▸ room), if_pos room', entered]
      have follows := deeper { i with depth := i.depth + 1 } (by rw [← sameDepth]) sameLimit
      generalize run { i with depth := i.depth + 1 } = result at follows ⊢
      generalize ran : run' (({ i with depth := i.depth + 1 } : Image).withLimit limit') = result'
        at follows
      have ran' : run' { i.withLimit limit' with depth := (i.withLimit limit').depth + 1 } = result' := ran
      rw [ran']
      cases follows with
      | @ok a j sameDepth sameLimit =>
          exact .ok (j := { j with depth := j.depth - 1 }) (by rw [sameDepth]; rfl) sameLimit
      | @error interrupt j sameDepth sameLimit =>
          exact .error (j := { j with depth := j.depth - 1 }) (by rw [sameDepth]; rfl) sameLimit
      | stopped may => exact .stopped may
    · have room' : ¬(i.withLimit limit').depth < (i.withLimit limit').depthLimit :=
        sameDepth ▸ mt both.mpr room
      rw [if_neg (sameDepth ▸ sameLimit ▸ room), if_neg room']
      exact .error sameDepth sameLimit

/-- Calls under watch are followed by calls without it, at any depth. -/
theorem callWatched_tracks (barred : ∀ i : Image, outside i = true → stops)
    (passes : ∀ i : Image, i.depthLimit = limit → outside i = false →
      (i.depth < limit ↔ i.depth < limit'))
    (within : ∀ i : Image, i.depth ≤ i.depthLimit → inside i = false) (steps : Nat) :
    ∀ depth function args, Tracks depth limit limit' stops
      (callWatched outside inside steps function args) (callWithin steps function args) := by
  induction steps with
  | zero => exact fun depth function args => .interrupt _
  | succ steps ih =>
      intro depth function args i sameDepth sameLimit
      cases function with
      | function address =>
          have same : ((i.withLimit limit').heap.function address).callable =
              (i.heap.function address).callable := rfl
          rw [callWatched_function, callWithin_function, same]
          cases (i.heap.function address).callable with
          | closure params body scope =>
              have deeper := (composed_body scope params args body steps).tracks (ih (depth + 1))
              exact deeper.counted barred (fun j same limited passed => same ▸ passes j limited passed)
                within i sameDepth sameLimit
          | native n => exact (composed_runNative n args).tracks (ih depth) i sameDepth sameLimit
          | primitive p =>
              exact (composed_callPrimitive p args).tracks (ih depth) i sameDepth sameLimit
      | _ =>
          exact (Elementary.bind (.describe _) fun _ => .fail _).tracks i sameDepth sameLimit

end Calling

section Limits

variable {limit : Nat} {call : Caller} {steps : Nat} {program : Program} {image : Image}

/-- An end that is as another one, but under another limit. -/
def underLimit (limit : Nat) :
    EStateM.Result Interrupt Image α → EStateM.Result Interrupt Image α
  | .ok a image => .ok a (image.withLimit limit)
  | .error interrupt image => .error interrupt (image.withLimit limit)

/-- Calls that leave the depth and the limit as they found them, however they end. -/
def Restores (call : Caller) : Prop :=
  ∀ function args image, (imageOf (call function args image)).depth = image.depth ∧
    (imageOf (call function args image)).depthLimit = image.depthLimit

/-- A caller that stops where it is called from any other depth. -/
def callAt (depth : Nat) (call : Caller) : Caller := fun function args =>
  unlessBarred (fun image => image.depth != depth) (call function args)

/-- A program that ends, from an image, without the stack being exhausted in any call. -/
def Unexhausted (steps : Nat) (program : Program) (image : Image) : Prop :=
  ∀ ended, runWatched exhausted nowhere steps program image ≠ .error .outOfSteps ended

theorem Tracks.restored {run run' : Run α}
    (tracks : Tracks image.depth image.depthLimit limit False run run') :
    (imageOf (run image)).depth = image.depth ∧
      (imageOf (run image)).depthLimit = image.depthLimit := by
  have follows := tracks image rfl rfl
  generalize run image = result at follows ⊢
  generalize run' (image.withLimit limit) = result' at follows
  cases follows with
  | ok sameDepth sameLimit => exact ⟨sameDepth, sameLimit⟩
  | error sameDepth sameLimit => exact ⟨sameDepth, sameLimit⟩
  | stopped may => exact may.elim

theorem Tracks.same {run run' : Run α}
    (tracks : Tracks image.depth image.depthLimit image.depthLimit False run run') :
    run image = run' image := by
  have follows := tracks image rfl rfl
  change Follows _ _ _ _ _ (run' image) at follows
  generalize run image = result at follows ⊢
  generalize run' image = result' at follows ⊢
  cases follows with
  | ok sameDepth sameLimit => rw [← sameLimit]; rfl
  | error sameDepth sameLimit => rw [← sameLimit]; rfl
  | stopped may => exact may.elim

/-- Under a limit that is no lower, a run goes on from every call that did not exhaust the stack. -/
theorem exhausted_tracks {depth limit limit' : Nat} (higher : limit ≤ limit') (steps : Nat)
    (function : Value) (args : List Value) :
    Tracks depth limit limit' True (callWatched exhausted nowhere steps function args)
      (callWithin steps function args) := by
  refine callWatched_tracks (fun _ _ => trivial) (fun i limited passed => ?_) (fun _ _ => rfl) steps
    depth function args
  have room : i.depth < i.depthLimit := by simpa [exhausted] using passed
  have room : i.depth < limit := limited ▸ room
  exact ⟨fun _ => Nat.lt_of_lt_of_le room higher, fun _ => room⟩

/-- No body of a compiled function begins beyond the limit. -/
theorem overrun_tracks {depth limit : Nat} (steps : Nat) (function : Value) (args : List Value) :
    Tracks depth limit limit False (callWatched nowhere overrun steps function args)
      (callWithin steps function args) := by
  refine callWatched_tracks (fun _ barred => nowhere_not barred) (fun _ _ _ => Iff.rfl)
    (fun i within => ?_) steps depth function args
  simpa [overrun] using within

theorem callWithin_tracks {depth limit : Nat} (steps : Nat) (function : Value) (args : List Value) :
    Tracks depth limit limit False (callWithin steps function args)
      (callWithin steps function args) := by
  rw [← callWatched_nowhere]
  nth_rewrite 2 [callWatched_nowhere]
  exact callWatched_tracks (fun _ barred => nowhere_not barred) (fun _ _ _ => Iff.rfl)
    (fun _ _ => rfl) steps depth function args

theorem callWithin_restores (steps : Nat) : Restores (callWithin steps) :=
  fun function args _ => (callWithin_tracks steps function args).restored

/-- Nothing but a call of a compiled function makes a run go deeper: all calls that a run makes on its
own account, it makes from the depth that it began at. -/
theorem Composed.at_depth {run : Caller → Run α} (composed : Composed run) (restores : Restores call)
    (image : Image) :
    run (callAt image.depth call) image = run call image := by
  have tracks : Tracks image.depth image.depthLimit image.depthLimit False (run call)
      (run (callAt image.depth call)) := by
    refine composed.tracks fun function args i sameDepth sameLimit => ?_
    have within : callAt image.depth call function args (i.withLimit image.depthLimit) =
        call function args i := by
      rw [← sameLimit, ← sameDepth, callAt, unlessBarred]
      exact if_neg (by simp [Image.withLimit])
    rw [within]
    obtain ⟨depth, limit⟩ := restores function args i
    exact .self (depth.trans sameDepth) (limit.trans sameLimit)
  exact tracks.same.symm

theorem runWithin_composed (steps : Nat) (program : Program) :
    runWithin steps program = statementsBy (callWithin steps) steps .undefined program.body := by
  rw [runWithin, statementsBy_callWithin]

/-- A run that does not exhaust the stack ends the same way under any higher limit. -/
theorem runWithin_withLimit (higher : image.depthLimit ≤ limit)
    (unexhausted : Unexhausted steps program image) :
    runWithin steps program (image.withLimit limit) =
      underLimit limit (runWithin steps program image) := by
  have follows {limit : Nat} (higher : image.depthLimit ≤ limit) :
      runWithin steps program (image.withLimit limit) =
        underLimit limit (runWatched exhausted nowhere steps program image) := by
    have calls : ∀ function args, Tracks image.depth image.depthLimit limit True
        (callWatched exhausted nowhere steps function args) (callWithin steps function args) :=
      exhausted_tracks higher steps
    have follows := (composed_statements steps .undefined program.body).tracks calls image rfl rfl
    rw [← runWithin_composed] at follows
    change Follows _ _ _ _ (runWatched exhausted nowhere steps program image) _ at follows
    have proceeds := unexhausted
    unfold Unexhausted at proceeds
    generalize runWatched exhausted nowhere steps program image = result at follows proceeds ⊢
    generalize runWithin steps program (image.withLimit limit) = result' at follows ⊢
    cases follows with
    | ok sameDepth sameLimit => rfl
    | error sameDepth sameLimit => rfl
    | stopped may => exact absurd rfl (proceeds _)
  have here : runWithin steps program image =
      underLimit image.depthLimit (runWatched exhausted nowhere steps program image) :=
    follows (Nat.le_refl image.depthLimit)
  rw [follows higher, here]
  cases runWatched exhausted nowhere steps program image <;> rfl

/-- The limit on the depth of calls does nothing but stop runs. A program that ends without exhausting
the stack ends in the same way, and leaves the same image, under any higher limit. Every run of a
program and every call ends as deep as it began, however it ends, and no body of a compiled function
begins beyond the limit. And whatever calls are made to do, expressions and statements, function
literals that are called where they stand among them, support routines and built-in functions make all
their calls from the depth that they began at. -/
theorem depth_limit_stops_only (steps : Nat) :
    (∀ program image limit, image.depthLimit ≤ limit → Unexhausted steps program image →
      runWithin steps program (image.withLimit limit) =
        underLimit limit (runWithin steps program image)) ∧
    (∀ program image, (imageOf (runWithin steps program image)).depth = image.depth ∧
      runWatched nowhere overrun steps program image = runWithin steps program image) ∧
    (∀ function args image,
      (imageOf (callWithin steps function args image)).depth = image.depth ∧
      callWatched nowhere overrun steps function args image =
        callWithin steps function args image) ∧
    ∀ call, Restores call → ∀ image turns c,
      (∀ code, evalExpr (callAt image.depth call) turns c code image =
        evalExpr call turns c code image) ∧
      (∀ stmts, execBlock (callAt image.depth call) turns c stmts image =
        execBlock call turns c stmts image) ∧
      (∀ native args, runNative (callAt image.depth call) native args image =
        runNative call native args image) ∧
      ∀ p args, callPrimitive (callAt image.depth call) p args image =
        callPrimitive call p args image := by
  refine ⟨fun program image limit => runWithin_withLimit, fun program image => ?_,
    fun function args image => ?_, fun call restores image turns c => ?_⟩
  · have statements := composed_statements steps .undefined program.body
    rw [runWithin_composed]
    exact ⟨(statements.tracks (callWithin_tracks steps)).restored.1,
      (statements.tracks (overrun_tracks steps)).same⟩
  · exact ⟨(callWithin_restores steps function args image).1,
      (overrun_tracks steps function args).same⟩
  · exact ⟨fun code => (composed_evalExpr code c).at_depth restores image,
      fun stmts => (composed_execBlock stmts c).at_depth restores image,
      fun native args => (composed_runNative native args).at_depth restores image,
      fun p args => (composed_callPrimitive p args).at_depth restores image⟩

/-- Calls a function that is made on the spot, but not where it stands. -/
def callsOnce : Program :=
  ⟨[.effect (.call (.binary .or (.function [] [.ret (.bool true)]) .undefined) [])]⟩

/-- An image without objects, and with room for one call. -/
def callsOnceFrom : Image := { symbols := Image.initialSymbols, heap := {}, depthLimit := 1 }

/-- A program of one call gets by with a limit of one. -/
theorem depth_limit_stops_only_of_one :
    Unexhausted 2 callsOnce callsOnceFrom ∧
    runWithin 2 callsOnce (callsOnceFrom.withLimit 5) =
      underLimit 5 (runWithin 2 callsOnce callsOnceFrom) ∧
    Restores (callWithin 2) ∧
    callPrimitive (callAt 0 (callWithin 2)) .funcall [] callsOnceFrom =
      callPrimitive (callWithin 2) .funcall [] callsOnceFrom := by
  have unexhausted : Unexhausted 2 callsOnce callsOnceFrom := by
    have ran : ∃ ended, runWatched exhausted nowhere 2 callsOnce callsOnceFrom =
        .ok (.bool true) ended := ⟨_, rfl⟩
    obtain ⟨ended, ran⟩ := ran
    intro ended' stops
    rw [ran] at stops
    cases stops
  have restores : Restores (callWithin 2) := callWithin_restores 2
  obtain ⟨higher, -, -, steady⟩ := depth_limit_stops_only 2
  exact ⟨unexhausted, higher callsOnce callsOnceFrom 5 (by decide) unexhausted, restores,
    (steady _ restores callsOnceFrom 2 Image.globalScope).2.2.2 .funcall []⟩

end Limits

end Machine

end LispScript
