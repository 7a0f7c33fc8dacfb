import LispScript.Proofs.Growth

/-!
How runs are put together, for all that can be told of a run whatever its calls do. And first what is
told of all runs in this way: what was thrown or bundled stays as it is. Every run only adds to the
transfers and the bundles that there are, and makes no vector and no variable go away.
-/

namespace LispScript.Machine

open Script Discipline

/-- The functions that were made are what they were. -/
def KeepsClosures (heap later : Heap) : Prop :=
  ∀ (a : Nat) params body c, params ≠ [] → (heap.function a).callable = .closure params body c →
    (later.function a).callable = .closure params body c

theorem KeepsClosures.refl (heap : Heap) : KeepsClosures heap heap := fun _ _ _ _ _ is => is

theorem KeepsClosures.allocFunction (heap : Heap) (callable : Callable) :
    KeepsClosures heap (heap.allocFunction callable).2 := by
  intro a params body c some_ is
  change ((heap.functions.push _).getD a default).callable = _
  rw [getD_push, if_neg]
  · exact is
  · rintro rfl
    have absent : heap.function heap.functions.size = default := by simp [Heap.function, Array.getD]
    rw [absent] at is
    cases is
    exact some_ rfl

/-- An image later than another, with all its transfers, bundles, functions and variables. -/
structure Adds (i j : Image) : Prop where
  closures : KeepsClosures i.heap j.heap
  vars : ∀ (c : Nat) (name : String), (i.heap.scope c).vars.contains name →
    (j.heap.scope c).vars.contains name
  vectors : i.heap.vectors.size ≤ j.heap.vectors.size
  bundles : Extends i.heap.bundles j.heap.bundles
  transfers : Extends i.heap.transfers j.heap.transfers

namespace Adds

variable {i j k : Image}

theorem refl (i : Image) : Adds i i :=
  ⟨.refl _, fun _ _ held => held, Nat.le_refl _, .refl _, .refl _⟩

theorem trans (first : Adds i j) (second : Adds j k) : Adds i k :=
  ⟨fun a params body c some_ is =>
      second.closures a params body c some_ (first.closures a params body c some_ is),
    fun c name held => second.vars c name (first.vars c name held),
    Nat.le_trans first.vectors second.vectors, first.bundles.trans second.bundles,
    first.transfers.trans second.transfers⟩

/-- A step that makes or changes scopes or functions only. -/
theorem sameObjects {heap : Heap} (vectors : heap.vectors = i.heap.vectors)
    (bundles : heap.bundles = i.heap.bundles) (transfers : heap.transfers = i.heap.transfers)
    (closures : KeepsClosures i.heap heap)
    (vars : ∀ (c : Nat) (name : String), (i.heap.scope c).vars.contains name →
      (heap.scope c).vars.contains name) :
    Adds i { i with heap } :=
  ⟨closures, vars, Nat.le_of_eq (congrArg Array.size vectors.symm), bundles ▸ .refl _,
    transfers ▸ .refl _⟩

theorem allocScope (i : Image) (scope : Scope) :
    Adds i { i with heap := (i.heap.allocScope scope).2 } := by
  refine sameObjects rfl rfl rfl (.refl _) ?_
  intro c name held
  change ((i.heap.scopes.push scope).getD c default).vars.contains name
  rw [getD_push]
  split
  · rename_i last
    subst last
    have none_ : i.heap.scope i.heap.scopes.size = default := by simp [Heap.scope, Array.getD]
    rw [none_] at held
    contradiction
  · exact held

theorem bindVariable (i : Image) (target : Address) (name : String) (value : Value) :
    Adds i { i with heap := i.heap.bindVariable target name value } := by
  refine sameObjects rfl rfl rfl (.refl _) ?_
  intro c other held
  change ((i.heap.scopes.modify target _).getD c default).vars.contains other
  by_cases bound : target < i.heap.scopes.size
  · rw [getD_modify _ _ _ _ bound]
    by_cases same : c = target
    · subst same
      rw [if_pos rfl, Std.TreeMap.contains_insert, Bool.or_eq_true]
      exact .inr held
    · rwa [if_neg same]
  · have same : i.heap.scopes.modify target (fun scope =>
        { scope with vars := scope.vars.insert name value }) = i.heap.scopes := by
      apply Array.ext_getElem?
      intro d
      rw [Array.getElem?_modify]
      split
      · rename_i same
        subst same
        simp [Array.getElem?_eq_none (Nat.le_of_not_lt bound)]
      · rfl
    rw [same]
    exact held

theorem declareVariable (i : Image) (c : Address) (name : String) :
    Adds i { i with heap := i.heap.declareVariable c name } := by
  simp only [Heap.declareVariable]
  split
  · exact .refl i
  · exact .bindVariable i _ _ _

theorem transfer (adds : Adds i j) {a : Nat} (bound : a < i.heap.transfers.size) :
    j.heap.transfer a = i.heap.transfer a :=
  adds.transfers.getD bound _

end Adds

theorem Quiet.adds {i j : Image} (quiet : Quiet i j) : Adds i j :=
  ⟨fun a _ _ _ _ is => (quiet.callables a).trans is,
    fun c name held => by rwa [Heap.scope, quiet.scopes], quiet.vectors, quiet.bundles,
    quiet.transfers⟩

/-- A step whose images are related, however it ends. -/
def Relates (R : Image → Image → Prop) (step : Run α) : Prop := ∀ i, R i (imageOf (step i))

/-- A step that only adds, however it ends. -/
abbrev IsAdding (step : Run α) : Prop := Relates Adds step

/-- A relation that holds along every run, since every part of one obeys it. -/
structure Persistent (R : Image → Image → Prop) : Prop where
  refl (i : Image) : R i i
  trans {i j k : Image} (first : R i j) (second : R j k) : R i k
  elementary {α : Type} {step : Run α} (elementary : Elementary step) : Relates R step
  onHeap {i : Image} {heap : Heap} (adds : Adds i { i with heap }) : R i { i with heap }
  atDepth (i : Image) (depth : Nat) : R i { i with depth }

namespace Relates

variable {R : Image → Image → Prop} {step : Run α} {rest : α → Run β}

theorem bind (persistent : Persistent R) (first : Relates R step)
    (second : ∀ a, Relates R (rest a)) : Relates R (step >>= rest) := by
  intro i
  change R i (imageOf (EStateM.bind step rest i))
  rw [EStateM.bind]
  have related := first i
  cases ended : step i with
  | ok a j =>
      rw [ended] at related
      exact persistent.trans related (second a j)
  | error interrupt j =>
      rw [ended] at related
      exact related

theorem handling (persistent : Persistent R) {block : Run Flow} {handler : Value → Run Flow}
    (first : Relates R block) (second : ∀ thrown, Relates R (handler thrown)) :
    Relates R (handling block handler) := by
  intro i
  rw [Machine.handling]
  have related := first i
  cases ended : block i with
  | ok flow j => rwa [ended] at related
  | error interrupt j =>
      rw [ended] at related
      cases interrupt with
      | thrown thrown => exact persistent.trans related (second thrown j)
      | failed error => exact related
      | outOfSteps => exact related

theorem ensuring (persistent : Persistent R) {block cleanup : Run Flow}
    (first : Relates R block) (second : Relates R cleanup) :
    Relates R (ensuring block cleanup) := by
  intro i
  have related := first i
  have after : ∀ (j : Image) (result : EStateM.Result Interrupt Image Flow),
      imageOf result = imageOf (cleanup j) → R i j → R i (imageOf result) := by
    intro j result same related
    rw [same]
    exact persistent.trans related (second j)
  rw [Machine.ensuring]
  cases ended : block i with
  | ok flow j =>
      rw [ended] at related
      refine after j _ ?_ related
      dsimp only
      cases cleanup j with
      | ok flow' k => cases flow' <;> rfl
      | error interrupt k => rfl
  | error interrupt j =>
      rw [ended] at related
      cases interrupt with
      | outOfSteps => exact related
      | thrown thrown =>
          refine after j _ ?_ related
          dsimp only
          cases cleanup j with
          | ok flow' k => cases flow' <;> rfl
          | error interrupt k => rfl
      | failed error =>
          refine after j _ ?_ related
          dsimp only
          cases cleanup j with
          | ok flow' k => cases flow' <;> rfl
          | error interrupt k => rfl

theorem counted (persistent : Persistent R) {run : Run α} (relates : Relates R run) :
    Relates R (counted run) := by
  intro i
  have related := persistent.trans (persistent.atDepth i (i.depth + 1))
    (relates { i with depth := i.depth + 1 })
  rw [Machine.counted]
  split
  · cases ended : run { i with depth := i.depth + 1 } with
    | ok a j =>
        rw [ended] at related
        exact persistent.trans related (persistent.atDepth j _)
    | error interrupt j =>
        rw [ended] at related
        exact persistent.trans related (persistent.atDepth j _)
  · exact persistent.refl i

end Relates

section Composition

/-- Runs that are put together, whatever calls do, from elementary steps, changes of objects that only
add, interrupts and calls. What a call does is left open; nothing else of a run is. -/
inductive Composed : {α : Type} → (Caller → Run α) → Prop where
  | step {step : Run α} (elementary : Elementary step) : Composed fun _ => step
  | onHeap {f : Heap → α × Heap} (adds : ∀ i : Image, Adds i { i with heap := (f i.heap).2 }) :
      Composed fun _ => Run.onHeap f
  | interrupt (interrupt : Interrupt) : Composed (α := α) fun _ => throw interrupt
  | call (function : Value) (args : List Value) : Composed fun call => call function args
  | bind {first : Caller → Run α} {rest : α → Caller → Run β} (before : Composed first)
      (after : ∀ a, Composed (rest a)) : Composed fun call => first call >>= fun a => rest a call
  | handling {block : Caller → Run Flow} {handler : Value → Caller → Run Flow}
      (blocked : Composed block) (handled : ∀ thrown, Composed (handler thrown)) :
      Composed fun call => handling (block call) fun thrown => handler thrown call
  | ensuring {block cleanup : Caller → Run Flow} (blocked : Composed block)
      (cleaned : Composed cleanup) : Composed fun call => ensuring (block call) (cleanup call)

namespace Composed

theorem pure (a : α) : Composed fun _ => (Pure.pure a : Run α) := .step (.pure a)

theorem fail (error : RuntimeError) : Composed (α := α) fun _ => Run.fail error :=
  .step (.fail error)

theorem modifyHeap {f : Heap → Heap} (adds : ∀ i : Image, Adds i { i with heap := f i.heap }) :
    Composed fun _ => Run.modifyHeap f :=
  .onHeap (f := fun heap => ((), f heap)) adds

theorem congr {first second : Caller → Run α} (same : ∀ call, first call = second call)
    (composed : Composed second) : Composed first :=
  funext same ▸ composed

theorem ite {first second : Caller → Run α} (condition : Prop) [Decidable condition]
    (yes : Composed first) (no : Composed second) :
    Composed fun call => if condition then first call else second call := by
  by_cases holds : condition
  · exact yes.congr fun _ => if_pos holds
  · exact no.congr fun _ => if_neg holds

theorem resultOf (flow : Flow) : Composed fun _ => resultOf flow := by
  cases flow with
  | normal => exact .pure _
  | returned value => exact .pure _
  | left label => exact .fail _

theorem openActivation (parent : Address) (params : List String) (args : List Value) :
    Composed fun _ => openActivation parent params args := by
  unfold Machine.openActivation
  exact .ite _ (.bind (.interrupt _) fun _ => .bind (.step (.allocVector _)) fun vector =>
    .onHeap fun i => .allocScope i _) (.bind (.step (.allocVector _)) fun vector =>
    .onHeap fun i => .allocScope i _)

theorem repeatWhile {label : Option String} {test : Caller → Run Value} {body : Caller → Run Flow}
    (tested : Composed test) (run : Composed body) (turns : Nat) :
    Composed fun call => repeatWhile label (test call) (body call) turns := by
  induction turns with
  | zero => exact .interrupt _
  | succ turns ih =>
      simp only [Machine.repeatWhile]
      refine .bind tested fun value => .ite _ (.bind run fun flow => ?_) (.pure _)
      cases flow with
      | normal => exact ih
      | left target => exact .pure _
      | returned value => exact .pure _

end Composed

section Evaluation

variable {turns : Nat}

theorem composed_fallThrough {flow : Flow} {rest : Caller → Run Flow} (onward : Composed rest) :
    Composed fun call => match flow with
      | .normal => rest call
      | .left none => pure .normal
      | flow => pure flow := by
  cases flow with
  | normal => exact onward
  | returned _ => exact .pure _
  | left target => cases target <;> exact .pure _

mutual

theorem composed_evalExpr :
    ∀ (code : Expr) (c : Nat), Composed fun call => evalExpr call turns c code
  | .number _, _ | .bool _, _ | .undefined, _ => by
      simp only [evalExpr]
      exact .pure _
  | .string _, _ => by
      simp only [evalExpr]
      exact .step (.newString _)
  | .ident name, c => by
      simp only [evalExpr]
      refine .bind (.step .heap) fun heap => ?_
      cases heap.lookupVariable? c name with
      | some value => exact .pure _
      | none => exact .fail _
  | .support member, c => by
      simp only [evalExpr]
      cases Image.support? member with
      | some value => exact .pure _
      | none => exact .fail _
  | .member object property, c => by
      simp only [evalExpr]
      exact .bind (composed_evalExpr object c) fun value => .step (elementary_getProperty value _)
  | .index object position, c => by
      simp only [evalExpr]
      exact .bind (composed_evalExpr object c) fun value =>
        .bind (composed_evalExpr position c) fun at_ => .step (elementary_getElement value at_)
  | .call callee args, c => by
      by_cases literal : ∃ params body, callee = .function params body
      · obtain ⟨params, body, rfl⟩ := literal
        simp only [evalExpr]
        exact .bind (composed_evalList args c) fun values =>
          .bind (.openActivation c params values) fun inner =>
            .bind (composed_execBlock body inner) .resultOf
      · refine .congr (fun call => ?_) (.bind (composed_evalExpr callee c) fun function =>
          .bind (composed_evalList args c) fun values => .call function values)
        rw [evalExpr]
        exact fun params body same => literal ⟨params, body, same⟩
  | .function params body, c => by
      simp only [evalExpr]
      exact .onHeap fun i => .sameObjects rfl rfl rfl (.allocFunction i.heap _) fun _ _ held => held
  | .array items, c => by
      simp only [evalExpr]
      exact .bind (composed_evalList items c) fun values => .step (.newVector values)
  | .binary op left right, c => by
      have first := composed_evalExpr left c
      have second := composed_evalExpr right c
      cases op
      case and =>
        simp only [evalExpr]
        exact .bind first fun value => .ite _ second (.pure _)
      case or =>
        simp only [evalExpr]
        exact .bind first fun value => .ite _ (.pure _) second
      all_goals
        simp only [evalExpr]
        exact .bind first fun value => .bind second fun other =>
          .step (elementary_applyBinary _ value other)
  | .unary op operand, c => by
      simp only [evalExpr]
      exact .bind (composed_evalExpr operand c) fun value => .step (elementary_applyUnary op value)
  | .cond test yes no, c => by
      simp only [evalExpr]
      exact .bind (composed_evalExpr test c) fun value =>
        .ite _ (composed_evalExpr yes c) (composed_evalExpr no c)
  | .assign target value, c => by
      simp only [evalExpr]
      exact .bind (composed_evalExpr value c) fun held =>
        .bind (composed_assignTo target held c) fun _ => .pure _
  | .comma items, c => by
      simp only [evalExpr]
      exact .bind (composed_evalList items c) fun _ => .pure _

theorem composed_evalList :
    ∀ (codes : List Expr) (c : Nat), Composed fun call => evalList call turns c codes
  | [], _ => by
      simp only [evalList]
      exact .pure _
  | code :: rest, c => by
      simp only [evalList]
      exact .bind (composed_evalExpr code c) fun value =>
        .bind (composed_evalList rest c) fun _ => .pure _

theorem composed_assignTo :
    ∀ (target : Expr) (value : Value) (c : Nat),
      Composed fun call => assignTo call turns c value target
  | .ident name, value, c => by
      simp only [assignTo]
      refine .bind (.step .heap) fun heap => ?_
      cases heap.variableScope? c name with
      | some owner => exact .modifyHeap fun i => .bindVariable i _ _ _
      | none => exact .fail _
  | .member object property, value, c => by
      simp only [assignTo]
      exact .bind (composed_evalExpr object c) fun held =>
        .step (elementary_setProperty held property value)
  | .index object position, value, c => by
      simp only [assignTo]
      exact .bind (composed_evalExpr object c) fun held =>
        .bind (composed_evalExpr position c) fun at_ => .step (elementary_setElement held at_ value)
  | .number _, _, _ | .string _, _, _ | .bool _, _, _ | .undefined, _, _ | .support _, _, _
  | .call _ _, _, _ | .function _ _, _, _ | .array _, _, _ | .binary _ _ _, _, _ | .unary _ _, _, _
  | .cond _ _ _, _, _ | .assign _ _, _, _ | .comma _, _, _ => by
      simp only [assignTo]
      exact .fail _

theorem composed_exec :
    ∀ (stmt : Stmt) (c : Nat), Composed fun call => exec call turns c stmt
  | .declare name, c => by
      simp only [exec]
      exact .bind (.modifyHeap fun i => .declareVariable i c name) fun _ => .pure _
  | .define name value, c => by
      simp only [exec]
      exact .bind (composed_evalExpr value c) fun held =>
        .bind (.modifyHeap fun i => .bindVariable i _ _ _) fun _ => .pure _
  | .effect value, c => by
      simp only [exec]
      exact .bind (composed_evalExpr value c) fun _ => .pure _
  | .ret value, c => by
      simp only [exec]
      exact .bind (composed_evalExpr value c) fun _ => .pure _
  | .branch test yes no, c => by
      simp only [exec]
      exact .bind (composed_evalExpr test c) fun value =>
        .ite _ (composed_execBlock yes c) (composed_execBlock no c)
  | .loop label test body, c => by
      simp only [exec]
      exact .repeatWhile (composed_evalExpr test c) (composed_execBlock body c) turns
  | .iterate start test update body, c => by
      simp only [exec]
      refine .bind (composed_evalExpr start c) fun _ => ?_
      refine .repeatWhile (composed_evalExpr test c) (.bind (composed_execBlock body c)
        fun flow => ?_) turns
      cases flow with
      | normal => exact .bind (composed_evalExpr update c) fun _ => .pure _
      | returned _ => exact .pure _
      | left _ => exact .pure _
  | .select subject cases_, c => by
      simp only [exec]
      refine .bind (composed_evalExpr subject c) fun value => ?_
      refine .bind (composed_chooseCase cases_ value c) fun chosen => ?_
      cases chosen.orElse fun _ => cases_.findIdx? (·.isDefault) with
      | some start => exact composed_execCases cases_ start c
      | none => exact .pure _
  | .leave label, c => by
      simp only [exec]
      exact .pure _
  | .raise value, c => by
      simp only [exec]
      exact .bind (composed_evalExpr value c) fun thrown => .interrupt _
  | .guarded block handler cleanup, c => by
      have handled : Composed fun call => match handler with
          | .none => execBlock call turns c block
          | .catching param body =>
              Machine.handling (execBlock call turns c block) fun thrown =>
                openHandler c param thrown >>= fun inner => execBlock call turns inner body := by
        have first := composed_execBlock block c
        cases handler with
        | none => exact first
        | catching param body =>
            exact .handling first fun thrown =>
              .bind (.onHeap fun i => .allocScope i _) fun inner =>
                composed_execBlock body inner
      cases cleanup with
      | none => cases handler <;> exact handled
      | always body => cases handler <;> exact .ensuring handled (composed_execBlock body c)

theorem composed_execBlock :
    ∀ (stmts : List Stmt) (c : Nat), Composed fun call => execBlock call turns c stmts
  | [], _ => by
      simp only [execBlock]
      exact .pure _
  | stmt :: rest, c => by
      simp only [execBlock]
      refine .bind (composed_exec stmt c) fun flow => ?_
      cases flow with
      | normal => exact composed_execBlock rest c
      | returned _ => exact .pure _
      | left _ => exact .pure _

theorem composed_chooseCase :
    ∀ (cases_ : List Case) (value : Value) (c : Nat),
      Composed fun call => chooseCase call turns c value cases_
  | [], _, _ => by
      simp only [chooseCase]
      exact .pure _
  | .otherwise body :: rest, value, c => by
      simp only [chooseCase]
      exact .bind (composed_chooseCase rest value c) fun _ => .pure _
  | .case test body :: rest, value, c => by
      simp only [chooseCase]
      exact .bind (composed_evalExpr test c) fun held =>
        .ite _ (.pure _) (.bind (composed_chooseCase rest value c) fun _ => .pure _)

theorem composed_execCases :
    ∀ (cases_ : List Case) (start c : Nat),
      Composed fun call => execCases call turns c start cases_
  | [], _, _ => by
      simp only [execCases]
      exact .pure _
  | case_ :: rest, start + 1, c => by
      simp only [execCases]
      exact composed_execCases rest start c
  | .case test body :: rest, 0, c => by
      simp only [execCases]
      exact .bind (composed_execBlock body c) fun flow =>
        composed_fallThrough (composed_execCases rest 0 c)
  | .otherwise body :: rest, 0, c => by
      simp only [execCases]
      exact .bind (composed_execBlock body c) fun flow =>
        composed_fallThrough (composed_execCases rest 0 c)

end

end Evaluation

section Calling

theorem composed_runPrimitive (p : Primitive) (args : List Value) :
    Composed fun call => runPrimitive call p args := by
  cases p
  case funcall =>
    exact .bind (.step (elementary_coerceFunction _)) fun function => .call function _
  case apply =>
    refine .bind (.step (elementary_coerceFunction _)) fun function => ?_
    dsimp only
    cases (args.drop 2).getLast? with
    | some list => exact .bind (.step (elementary_listItems list)) fun spread => .call function _
    | none => exact .call function _
  case values => exact .call _ _
  case valuesList => exact .bind (.step (elementary_listItems _)) fun items => .call _ items
  all_goals
    simp only [runPrimitive]
    exact .step (elementary_runBuiltin _ args)

theorem composed_callPrimitive (p : Primitive) (args : List Value) :
    Composed fun call => callPrimitive call p args :=
  .ite _ (composed_runPrimitive p _) (.fail _)

theorem composed_runNative (n : Native) (args : List Value) :
    Composed fun call => runNative call n args := by
  cases n with
  | primitive p => exact composed_runPrimitive p args
  | routine r =>
      cases r
      case deliverValues => exact .bind (.step (.valuesOf _)) fun values => .call _ values
      case applyVector =>
        exact .bind (.step (elementary_vectorItems _)) fun items => .call _ _
      all_goals
        simp only [runNative]
        exact .step (elementary_runRoutine _ args)

/-- The body of a compiled function, in a scope of its own. -/
theorem composed_body (scope : Address) (params : List String) (args : List Value)
    (body : List Stmt) (turns : Nat) :
    Composed fun call => openActivation scope params args >>= fun inner =>
      execBlock call turns inner body >>= resultOf :=
  .bind (.openActivation _ _ _) fun inner => .bind (composed_execBlock body inner) .resultOf

end Calling

end Composition

section Persistence

variable {R : Image → Image → Prop} {call : Caller} {turns : Nat}

theorem Composed.relates {run : Caller → Run α} (composed : Composed run)
    (persistent : Persistent R) (calls : ∀ function args, Relates R (call function args)) :
    Relates R (run call) := by
  induction composed with
  | step elementary => exact persistent.elementary elementary
  | onHeap adds => exact fun i => persistent.onHeap (adds i)
  | interrupt interrupt => exact persistent.refl
  | call function args => exact calls function args
  | bind _ _ before after => exact .bind persistent before after
  | handling _ _ blocked handled => exact .handling persistent blocked handled
  | ensuring _ _ blocked cleaned => exact .ensuring persistent blocked cleaned

/-- What every part of a run obeys, calls obey. -/
theorem callWithin_relates (persistent : Persistent R) (steps : Nat) (function : Value)
    (args : List Value) : Relates R (callWithin steps function args) := by
  induction steps generalizing function args with
  | zero => exact persistent.refl
  | succ steps ih =>
      intro i
      cases function with
      | function address =>
          rw [callWithin_function]
          cases (i.heap.function address).callable with
          | closure params body scope =>
              exact Relates.counted persistent
                ((composed_body scope params args body steps).relates persistent ih) i
          | native n => exact (composed_runNative n args).relates persistent ih i
          | primitive p => exact (composed_callPrimitive p args).relates persistent ih i
      | _ =>
          exact persistent.elementary (.bind (.describe _) fun _ => .fail _) i

theorem runStatements_relates (persistent : Persistent R) (steps : Nat) (last : Value)
    (stmts : List Stmt) : Relates R (runStatements steps last stmts) := by
  have calls := callWithin_relates persistent steps
  induction stmts generalizing last with
  | nil => exact persistent.refl
  | cons stmt rest ih =>
      have ran : Relates R (exec (callWithin steps) steps Image.globalScope stmt) :=
        (composed_exec stmt Image.globalScope).relates persistent calls
      by_cases effect : ∃ value, stmt = .effect value
      · obtain ⟨value, rfl⟩ := effect
        rw [runStatements]
        exact .bind persistent ((composed_evalExpr value _).relates persistent calls) fun last => ih last
      · rw [runStatements]
        · refine .bind persistent ran fun flow => ?_
          cases flow with
          | normal => exact ih last
          | returned _ => exact persistent.refl
          | left _ => exact persistent.refl
        · exact fun value same => effect ⟨value, same⟩

/-- An image that runs can lead to from another, for all that can be told of every run. -/
def Reaches (i j : Image) : Prop := ∀ R : Image → Image → Prop, Persistent R → R i j

theorem reaches_call (function : Value) (args : List Value) :
    Relates Reaches (Machine.call function args) :=
  fun i _ persistent => callWithin_relates persistent _ function args i

theorem reaches_run (program : Program) : Relates Reaches (Machine.run program) :=
  fun i _ persistent => runStatements_relates persistent _ _ program.body i

/-- Nothing goes away. -/
theorem Persistent.adds : Persistent Adds where
  refl := .refl
  trans := .trans
  elementary elementary i := (elementary.quiet i).adds
  onHeap adds := adds
  atDepth _ _ := ⟨.refl _, fun _ _ held => held, Nat.le_refl _, .refl _, .refl _⟩

/-- Calls only add. -/
def CallsAdd (call : Caller) : Prop := ∀ function args, IsAdding (call function args)

theorem execBlock_adds (calls : CallsAdd call) (stmts : List Stmt) (c : Nat) :
    IsAdding (execBlock call turns c stmts) :=
  (composed_execBlock stmts c).relates .adds calls

theorem callWithin_adds (steps : Nat) : CallsAdd (callWithin steps) :=
  fun function args => callWithin_relates .adds steps function args

/-- An image later than another, with all its symbols. -/
def KeepsSymbols (i j : Image) : Prop := i.symbols.symbols.size ≤ j.symbols.symbols.size

theorem Elementary.keepsHomes {step : Run α} (elementary : Elementary step) :
    Relates (fun i j => KeepsHomes i.symbols j.symbols) step := by
  induction elementary with
  | pure a => exact fun i => .refl _
  | fail error => exact fun i => .refl _
  | @bind _ _ step rest _ _ first second =>
      intro i
      change KeepsHomes i.symbols (imageOf (EStateM.bind step rest i)).symbols
      rw [EStateM.bind]
      have kept := first i
      cases ended : step i with
      | ok a j =>
          rw [ended] at kept
          exact kept.trans (second a j)
      | error interrupt j =>
          rw [ended] at kept
          exact kept
  | look same => exact fun i => .refl _
  | onSymbols keeps => exact fun i => keeps i.symbols
  | onHeap _ => exact fun i => .refl _

/-- In no run a symbol gets another home. -/
theorem Persistent.keepsHomes : Persistent fun i j => KeepsHomes i.symbols j.symbols where
  refl _ := .refl _
  trans first second := first.trans second
  elementary elementary := elementary.keepsHomes
  onHeap _ := .refl _
  atDepth _ _ := .refl _

/-- No run lets a symbol go. -/
theorem Persistent.keepsSymbols : Persistent KeepsSymbols where
  refl _ := Nat.le_refl _
  trans := Nat.le_trans
  elementary elementary i := (elementary.keepsHomes i).size
  onHeap _ := Nat.le_refl _
  atDepth _ _ := Nat.le_refl _

end Persistence

end LispScript.Machine
