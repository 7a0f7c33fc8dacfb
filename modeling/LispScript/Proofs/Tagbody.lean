import LispScript.Proofs.Catch

/-!
The loop of a `TAGBODY` at work. The sections are the cases of a switch, so control falls from each to
the next; an exit for the activation brings the label of the section to go on with.
-/

namespace LispScript

open Script Compiler Machine Discipline

/-- The code of a tagbody with tags: what identifies a run of it, the label of its loop, the variable
that holds the label to go on with, and the sections with their labels. -/
structure Tagbody where
  token : String
  loopLabel : String
  branch : String
  labels : List Nat
  bodies : List (List Stmt)

/-- The value that stands for a label. -/
def labelValue (label : Nat) : Value := .number (Float.ofNat label)

namespace Tagbody

variable (t : Tagbody)

def cases_ : List Case :=
  (t.labels.zip t.bodies).map fun (label, body) => .case (labelExpr label) body

/-- The statements from a section on. -/
def after (n : Nat) : List Stmt := (t.bodies.drop n).flatten

/-- What the handler of a turn is around. -/
def guardedPart : List Stmt :=
  [.select (.ident t.branch) t.cases_, .leave (some t.loopLabel)]

def turn : Stmt :=
  intercept t.guardedPart .tagbody (.ident t.token)
    [.effect (.assign (.ident t.branch) signalPayload)]

def loop : Stmt := .loop (some t.loopLabel) (.bool true) [t.turn]

/-- The code with the loop. -/
def code : Expr :=
  .wrap [.define t.token (.array []), .define t.branch (labelExpr (t.labels.headD 0)), t.loop,
    .ret .nil]

/-- The code without it. -/
def straight : Expr := statementsExpr (t.bodies.flatten ++ [.ret .nil])

/-- What makes the code of a tagbody one: each section has a label of its own, forms are evaluated for
their effects, and the variables are told from those of the forms. -/
structure WellFormed : Prop where
  nonempty : 0 < t.bodies.length
  sizes : t.labels.length = t.bodies.length
  distinct : t.labels.Nodup
  small : ∀ label ∈ t.labels, label < Number.exactLimit
  effects : ∀ body ∈ t.bodies, ∀ stmt ∈ body, ∃ code, stmt = .effect code
  holding : Holding t.token (.array []) t.bodies.flatten
  branch_ne_token : t.branch ≠ t.token
  branch_ne_values : t.branch ≠ "values"
  branch_ne_signal : t.branch ≠ "cf"

end Tagbody

section Switching

variable {call : Caller} {turns c : Nat} {i k : Image} {labels : List Nat}
  {bodies : List (List Stmt)} {flow : Flow}

/-- Statements that are evaluated for their effect end normally or not at all. -/
theorem execBlock_normal {stmts : List Stmt} (effects : ∀ stmt ∈ stmts, ∃ code, stmt = .effect code)
    (ended : execBlock call turns c stmts i = .ok flow k) : flow = .normal := by
  induction stmts generalizing i with
  | nil =>
      cases ended
      rfl
  | cons stmt rest ih =>
      obtain ⟨⟨code, rfl⟩, onward⟩ := List.forall_mem_cons.mp effects
      rw [execBlock] at ended
      obtain ⟨middle, j, first, ended⟩ := ok_of_bind ended
      rw [exec] at first
      obtain ⟨value, j', -, first⟩ := ok_of_bind first
      cases first
      exact ih onward ended

theorem declaredAll_of_effects {stmts : List Stmt}
    (effects : ∀ stmt ∈ stmts, ∃ code, stmt = .effect code) : Stmt.declaredAll stmts = [] := by
  induction stmts with
  | nil => rfl
  | cons stmt rest ih =>
      obtain ⟨⟨code, rfl⟩, onward⟩ := List.forall_mem_cons.mp effects
      simp [Stmt.declaredAll, Stmt.declared, ih onward]

/-- The case of a label is chosen. -/
theorem chooseCase_label {n label : Nat} (distinct : labels.Nodup)
    (small : ∀ label ∈ labels, label < Number.exactLimit) (sizes : labels.length = bodies.length)
    (found : labels[n]? = some label) :
    chooseCase call turns c (labelValue label)
      ((labels.zip bodies).map fun (label, body) => .case (labelExpr label) body) i =
      .ok (some n) i := by
  induction labels generalizing n bodies with
  | nil => contradiction
  | cons first rest ih =>
      obtain _ | ⟨body, bodies⟩ := bodies
      · contradiction
      obtain ⟨fresh, distinct⟩ := List.nodup_cons.mp distinct
      obtain ⟨smallFirst, smallRest⟩ := List.forall_mem_cons.mp small
      have test : evalExpr call turns c (labelExpr first) = pure (labelValue first) := by
        rw [labelExpr, evalExpr, labelValue]
      rw [List.zip_cons_cons, List.map_cons, chooseCase, test, pure_bind]
      cases n with
      | zero =>
          have same : first = label := by simpa using found
          have equal : (labelValue label).strictEq (labelValue first) = true :=
            (Number.ofNat_beq_iff (same ▸ smallFirst)).mpr same.symm
          rw [if_pos equal]
          rfl
      | succ n =>
          have found : rest[n]? = some label := found
          have member := List.mem_of_getElem? found
          have other : ¬ (labelValue label).strictEq (labelValue first) = true := by
            intro same
            have equal := (Number.ofNat_beq_iff (smallRest label member)).mp same
            exact fresh (equal ▸ member)
          rw [if_neg other, bind_of_ok (ih distinct smallRest (by simpa using sizes) found)]
          rfl

/-- The cases from one on run as the statements from there on do. -/
theorem execCases_flatten (n : Nat)
    (effects : ∀ body ∈ bodies, ∀ stmt ∈ body, ∃ code, stmt = .effect code)
    (sizes : labels.length = bodies.length) :
    execCases call turns c n
      ((labels.zip bodies).map fun (label, body) => .case (labelExpr label) body) i =
      execBlock call turns c (bodies.drop n).flatten i := by
  induction bodies generalizing labels n i with
  | nil =>
      simp only [List.zip_nil_right, List.map_nil, execCases, List.drop_nil, List.flatten_nil,
        execBlock]
  | cons body bodies ih =>
      obtain _ | ⟨label, labels⟩ := labels
      · contradiction
      obtain ⟨effectsFirst, effectsRest⟩ := List.forall_mem_cons.mp effects
      have sizes : labels.length = bodies.length := by simpa using sizes
      rw [List.zip_cons_cons, List.map_cons]
      cases n with
      | succ n =>
          rw [execCases]
          exact ih n effectsRest sizes
      | zero =>
          have onward := fun j => @ih j labels 0 effectsRest sizes
          rw [List.drop_zero] at onward
          rw [execCases, List.drop_zero, List.flatten_cons, execBlock_append]
          change EStateM.bind _ _ i = EStateM.bind _ _ i
          rw [EStateM.bind, EStateM.bind]
          cases ended : execBlock call turns c body i with
          | error interrupt j => rfl
          | ok flow j =>
              cases execBlock_normal effectsFirst ended
              exact onward j

end Switching

namespace Tagbody

variable {t : Tagbody}

theorem WellFormed.after_effects (formed : t.WellFormed) (n : Nat) :
    ∀ stmt ∈ t.after n, ∃ code, stmt = .effect code := by
  intro stmt member
  obtain ⟨body, inside, member⟩ := List.mem_flatten.mp member
  exact formed.effects body (List.mem_of_mem_drop inside) stmt member

theorem WellFormed.after_free (formed : t.WellFormed) (n : Nat) :
    Free (kept t.token) (Stmt.assignedAll (t.after n)) := by
  have all := free_stmts.mp formed.holding.assigned
  apply free_stmts.mpr
  intro stmt member
  obtain ⟨body, inside, member⟩ := List.mem_flatten.mp member
  exact all stmt (List.mem_flatten.mpr ⟨body, List.mem_of_mem_drop inside, member⟩)

theorem WellFormed.after_undeclared (formed : t.WellFormed) (n : Nat) :
    Stmt.declaredAll (t.after n) = [] :=
  declaredAll_of_effects (formed.after_effects n)

/-- What holds wherever the loop's code runs: the token is there, and so is the variable of the label
to go on with. -/
structure Turning (t : Tagbody) (c : Nat) (target : Value) (i : Image) : Prop where
  valid : Valid (around c (kept t.token)) i
  token : Holds i.heap c t.token target
  declared : (i.heap.scope c).vars.contains t.branch

section Turning

variable {call : Caller} {turns c : Nat} {i k : Image} {target : Value} {a : Address}

/-- Setting the label to go on with. -/
theorem turning_binding (formed : t.WellFormed) (valid : Valid (around c (kept t.token)) i)
    (token : Holds i.heap c t.token target) (value : Value) :
    Turning t c target (i.binding c t.branch value) ∧
      Holds (i.binding c t.branch value).heap c t.branch value := by
  have bound := token.bound
  have size : (i.binding c t.branch value).heap.scopes.size = i.heap.scopes.size :=
    Array.size_modify ..
  have scope : (i.binding c t.branch value).heap.scope c =
      { i.heap.scope c with vars := (i.heap.scope c).vars.insert t.branch value } :=
    (bindVariable_scope _ _ _ _ bound).trans (if_pos rfl)
  refine ⟨⟨valid.bindVariable value bound, ⟨size ▸ bound, ?_⟩, ?_⟩, ⟨size ▸ bound, ?_⟩⟩
  · rw [scope, Std.TreeMap.getElem?_insert, if_neg (by simpa using formed.branch_ne_token)]
    exact token.held
  · rw [scope]
    simp
  · rw [scope]
    simp

/-- A body that is left leaves the loop's variables as they are. -/
theorem Turning.left {steps n : Nat} {interrupt : Interrupt} (turning : Turning t c target i)
    (formed : t.WellFormed)
    (ended : execBlock (callWithin steps) turns c (t.after n) i = .error interrupt k) :
    Turning t c target k := by
  have bound := turning.token.bound
  have steady := @execBlock_steady (around c (kept t.token)) _ turns (callWithin_steady steps)
    (t.after n) i c ⟨turning.valid, .ofFree (.inl rfl) bound (formed.after_free n)⟩
    (.ofFree (.inl rfl) (by rw [formed.after_undeclared n]; exact free_nil))
  have adds := @execBlock_adds _ turns (callWithin_adds steps) (t.after n) c i
  rw [ended] at steady adds
  refine ⟨steady.valid, ⟨Nat.lt_of_lt_of_le bound steady.scopes, ?_⟩, adds.vars _ _ turning.declared⟩
  exact (steady.kept _ _ (.inr ⟨rfl, .inr rfl⟩)).trans turning.token.held

theorem Turning.handler (turning : Turning t c target k) (a : Address) :
    Turning t c target (handlerImage k c a) := by
  have bound := turning.token.bound
  have steady := turning.valid.handler_steady bound a
  refine ⟨steady.valid, ⟨Nat.lt_of_lt_of_le bound steady.scopes, ?_⟩,
    (handlerImage_adds k c a).vars _ _ turning.declared⟩
  exact (steady.kept _ _ (.inr ⟨rfl, .inr rfl⟩)).trans turning.token.held

end Turning

section Turns

variable {call : Caller} {turns c n label : Nat} {i k : Image} {target : Value} {a : Address}
  {flow : Flow}

/-- The switch goes on with the section whose label is at hand. -/
theorem exec_select (formed : t.WellFormed) (at_ : Holds i.heap c t.branch (labelValue label))
    (found : t.labels[n]? = some label) :
    exec call turns c (.select (.ident t.branch) t.cases_) i =
      execBlock call turns c (t.after n) i := by
  have value : evalExpr call turns c (.ident t.branch) i = .ok (labelValue label) i :=
    evalExpr_ident at_.lookup
  have chosen : chooseCase call turns c (labelValue label) t.cases_ i = .ok (some n) i :=
    chooseCase_label formed.distinct formed.small formed.sizes found
  rw [exec, bind_of_ok value, bind_of_ok chosen]
  exact execCases_flatten n formed.effects formed.sizes

theorem guardedPart_of_error {interrupt : Interrupt} (formed : t.WellFormed)
    (at_ : Holds i.heap c t.branch (labelValue label)) (found : t.labels[n]? = some label)
    (ended : execBlock call turns c (t.after n) i = .error interrupt k) :
    execBlock call turns c t.guardedPart i = .error interrupt k := by
  rw [guardedPart, execBlock]
  change EStateM.bind _ _ i = _
  rw [EStateM.bind, exec_select formed at_ found, ended]

theorem error_of_guardedPart {interrupt : Interrupt} (formed : t.WellFormed)
    (at_ : Holds i.heap c t.branch (labelValue label)) (found : t.labels[n]? = some label)
    (ended : execBlock call turns c t.guardedPart i = .error interrupt k) :
    execBlock call turns c (t.after n) i = .error interrupt k := by
  cases first : execBlock call turns c (t.after n) i with
  | error other j =>
      rw [guardedPart_of_error formed at_ found first] at ended
      exact ended
  | ok flow j =>
      cases execBlock_normal (formed.after_effects n) first
      rw [guardedPart, execBlock, bind_of_ok ((exec_select formed at_ found).trans first)] at ended
      contradiction

/-- A turn in which control comes to the end leaves the loop. -/
theorem exec_turn_of_ok (formed : t.WellFormed) (at_ : Holds i.heap c t.branch (labelValue label))
    (found : t.labels[n]? = some label)
    (ended : execBlock call turns c (t.after n) i = .ok flow k) :
    exec call turns c t.turn i = .ok (.left (some t.loopLabel)) k := by
  cases execBlock_normal (formed.after_effects n) ended
  have left : execBlock call turns c t.guardedPart i = .ok (.left (some t.loopLabel)) k := by
    rw [guardedPart, execBlock, bind_of_ok ((exec_select formed at_ found).trans ended)]
    rfl
  rw [turn, exec_intercept_of_not_thrown]
  · exact left
  · intro thrown later thrownEnd
    rw [left] at thrownEnd
    cases thrownEnd

/-- A turn lets failures pass. -/
theorem exec_turn_of_failed {interrupt : Interrupt} (formed : t.WellFormed)
    (at_ : Holds i.heap c t.branch (labelValue label)) (found : t.labels[n]? = some label)
    (ended : execBlock call turns c (t.after n) i = .error interrupt k)
    (failure : ∀ thrown, interrupt ≠ .thrown thrown) :
    exec call turns c t.turn i = .error interrupt k := by
  have left := guardedPart_of_error formed at_ found ended
  rw [turn, exec_intercept_of_not_thrown]
  · exact left
  · intro thrown later thrownEnd
    rw [left] at thrownEnd
    cases thrownEnd
    exact failure thrown rfl

/-- The handler finds the variable of the label in the loop's own scope. -/
theorem Turning.variableScope (turning : Turning t c target k) (formed : t.WellFormed)
    (a : Address) :
    (handlerImage k c a).heap.variableScope? k.heap.scopes.size t.branch = some c := by
  have own : (handlerImage k c a).heap.scope c = k.heap.scope c := by
    change (k.heap.scopes.push _).getD c default = k.heap.scopes.getD c default
    rw [getD_push, if_neg (Nat.ne_of_lt turning.token.bound)]
  have hidden : (({} : Variables).insert "cf" (Value.transfer a)).contains t.branch = false := by
    simp [Std.TreeMap.contains_insert, formed.branch_ne_signal.symm]
  have bound := turning.token.bound
  obtain ⟨m, size_eq⟩ : ∃ m, k.heap.scopes.size = m + 1 := ⟨k.heap.scopes.size - 1, by omega⟩
  have size_succ : (handlerImage k c a).heap.scopes.size = m + 1 + 1 := by
    rw [← size_eq]
    exact Array.size_push ..
  simp only [Heap.variableScope?, size_succ, Heap.findScopeWithin, handlerImage_scope, hidden, own,
    turning.declared, if_true, Bool.false_eq_true, if_false]

/-- A turn takes the exits that are meant for the activation, and goes on with what they carry. -/
theorem exec_turn_of_thrown (formed : t.WellFormed) (turning : Turning t c target k)
    (at_ : Holds i.heap c t.branch (labelValue label)) (found : t.labels[n]? = some label)
    (ended : execBlock call turns c (t.after n) i = .error (.thrown (.transfer a)) k) :
    exec call turns c t.turn i =
      if isFor .tagbody target (k.heap.transfer a) then
        .ok .normal ((handlerImage k c a).binding c t.branch (k.heap.transfer a).payload)
      else .error (.thrown (.transfer a)) (handlerImage k c a) := by
  have left := guardedPart_of_error formed at_ found ended
  have held := turning.token.lookup_handlerImage formed.holding.ne_signal a
  have payload : evalExpr call turns k.heap.scopes.size signalPayload (handlerImage k c a) = _ :=
    evalExpr_signalPayload k c a
  have assigned : assignTo call turns k.heap.scopes.size (k.heap.transfer a).payload
      (.ident t.branch) (handlerImage k c a) =
      .ok () ((handlerImage k c a).binding c t.branch (k.heap.transfer a).payload) := by
    rw [assignTo_ident_eq, turning.variableScope formed]
    rfl
  have handled : execBlock call turns k.heap.scopes.size
      [.effect (.assign (.ident t.branch) signalPayload)] (handlerImage k c a) =
      .ok .normal ((handlerImage k c a).binding c t.branch (k.heap.transfer a).payload) := by
    rw [execBlock_singleton, exec, evalExpr, bind_assoc, bind_of_ok payload, bind_assoc,
      bind_of_ok assigned]
    rfl
  have caught : exec call turns c t.turn i = _ :=
    (exec_intercept_of_thrown left).trans (execHandler_eq held)
  rw [caught, handled]

end Turns

/-- The loop of an activation has come to a section, with some turns left: it begins with the first,
and goes on with the one that an exit for the activation brings the label of. -/
inductive Reaches (t : Tagbody) (steps turns b : Nat) (image : Image) (target : Value) :
    Nat → Nat → Image → Prop where
  | start (entered : Entered steps turns b image t.token (.array []) target i) :
      Reaches t steps turns b image target turns 0
        (i.binding image.heap.scopes.size t.branch (labelValue (t.labels.headD 0)))
  | go {label : Nat} {a : Address} (reaches : Reaches t steps turns b image target (left + 1) n i)
      (ended : execBlock (callWithin (steps + 1)) turns image.heap.scopes.size (t.after n) i =
        .error (.thrown (.transfer a)) k)
      (meant : isFor .tagbody target (k.heap.transfer a) = true)
      (found : t.labels[m]? = some label)
      (payload : (k.heap.transfer a).payload = labelValue label) :
      Reaches t steps turns b image target left m
        ((handlerImage k image.heap.scopes.size a).binding image.heap.scopes.size t.branch
          (labelValue label))

section Rounds

variable {steps turns b left n m : Nat} {image i j k : Image} {target : Value}

/-- The rounds of the loop. -/
def rounds (t : Tagbody) (call : Caller) (turns c left : Nat) : Run Flow :=
  repeatWhile (some t.loopLabel) (evalExpr call turns c (.bool true))
    (exec call turns c t.turn) left

/-- What follows a turn. -/
def afterTurn (t : Tagbody) (call : Caller) (turns c left : Nat) : Flow → Run Flow
  | .normal => t.rounds call turns c left
  | .left label => return if endsLoop (some t.loopLabel) label then .normal else .left label
  | .returned value => return .returned value

theorem rounds_succ (call : Caller) (turns c left : Nat) :
    t.rounds call turns c (left + 1) =
      exec call turns c t.turn >>= t.afterTurn call turns c left := by
  funext i
  have test : evalExpr call turns c (.bool true) i = .ok (.bool true) i := by
    rw [evalExpr]
    rfl
  rw [rounds, repeatWhile, bind_of_ok test]
  change EStateM.bind _ _ i = EStateM.bind _ _ i
  rw [EStateM.bind, EStateM.bind]
  cases exec call turns c t.turn i with
  | error interrupt j => rfl
  | ok flow j => cases flow <;> rfl

/-- Wherever the loop comes, its variables are as they should be. -/
theorem Reaches.turning (formed : t.WellFormed)
    (reaches : Reaches t steps turns b image target left n i) :
    Turning t image.heap.scopes.size target i ∧ ∃ label, t.labels[n]? = some label ∧
      Holds i.heap image.heap.scopes.size t.branch (labelValue label) := by
  induction reaches with
  | start entered =>
      obtain ⟨turning, holds⟩ := turning_binding formed (entered.valid formed.holding)
        (entered.holds formed.holding) (labelValue (t.labels.headD 0))
      have nonempty : 0 < t.labels.length := formed.sizes ▸ formed.nonempty
      refine ⟨turning, t.labels.headD 0, ?_, holds⟩
      cases labels : t.labels with
      | nil => simp [labels] at nonempty
      | cons label rest => rfl
  | go reaches ended meant found payload ih =>
      obtain ⟨turning, -⟩ := ih
      rename_i a
      have handled := (turning.left formed ended).handler a
      obtain ⟨turning, holds⟩ := turning_binding formed handled.valid handled.token (labelValue _)
      exact ⟨turning, _, found, holds⟩

/-- The label of the first section is set before the loop. -/
theorem exec_branch_define (formed : t.WellFormed)
    (entered : Entered steps turns b image t.token (.array []) target i) :
    exec (callWithin (steps + 1)) turns image.heap.scopes.size
      (.define t.branch (labelExpr (t.labels.headD 0))) i =
      .ok .normal (i.binding image.heap.scopes.size t.branch (labelValue (t.labels.headD 0))) := by
  have own := Steady.functionScope_inside entered.ordered entered.bound
    (entered.steady formed.holding)
  rw [exec, labelExpr, evalExpr, pure_bind]
  change EStateM.Result.ok Flow.normal { i with heap := i.heap.defineVariable _ _ _ } = _
  rw [Heap.defineVariable, own]
  rfl

/-- What is at work in the rounds that are left is at work in the form. -/
theorem Reaches.active {β : Type} {x : Run β} {pending : List Layer} (formed : t.WellFormed)
    (reaches : Reaches t steps turns b image target left n i)
    (active : Active x j (t.rounds (callWithin (steps + 1)) turns image.heap.scopes.size left) i
      pending) :
    Active x j (evalExpr (callWithin (steps + 1)) turns b t.code) image pending := by
  induction reaches with
  | start entered =>
      refine .ofWrap (.afterStmt (entered.defined formed.holding) ?_)
      refine .afterStmt (exec_branch_define formed entered) (.ofStmt ?_)
      rw [loop, exec, execBlock_singleton]
      exact active
  | go reaches ended meant found payload ih =>
      obtain ⟨turning, label, at_found, at_⟩ := reaches.turning formed
      have turned := exec_turn_of_thrown formed (turning.left formed ended) at_ at_found ended
      rw [if_pos meant, payload] at turned
      apply ih
      rw [rounds_succ]
      exact .next turned active

/-- The value of a tagbody whose loop ended. -/
def ending : Flow → Run Value
  | .normal => return .nil
  | flow => resultOf flow

theorem execBlock_ending (call : Caller) (turns c : Nat) (stmt : Stmt) :
    (execBlock call turns c [stmt, .ret .nil] >>= resultOf) = exec call turns c stmt >>= ending := by
  funext i
  rw [execBlock, bind_assoc]
  change EStateM.bind _ _ i = EStateM.bind _ _ i
  rw [EStateM.bind, EStateM.bind]
  cases exec call turns c stmt i with
  | error interrupt j => rfl
  | ok flow j => cases flow <;> rfl

/-- What the rounds that are left end with, the form ends with. -/
theorem Reaches.eval (formed : t.WellFormed)
    (reaches : Reaches t steps turns b image target left n i) :
    evalExpr (callWithin (steps + 1)) turns b t.code image =
      (t.rounds (callWithin (steps + 1)) turns image.heap.scopes.size left >>=
        ending) i := by
  induction reaches with
  | start entered =>
      rw [code, evalExpr_wrap, execBlock, bind_assoc, bind_of_ok (entered.defined formed.holding),
        execBlock, bind_assoc, bind_of_ok (exec_branch_define formed entered), execBlock_ending,
        loop, exec, execBlock_singleton]
      rfl
  | go reaches ended meant found payload ih =>
      obtain ⟨turning, label, at_found, at_⟩ := reaches.turning formed
      have turned := exec_turn_of_thrown formed (turning.left formed ended) at_ at_found ended
      rw [if_pos meant, payload] at turned
      rw [ih, rounds_succ, bind_assoc, bind_of_ok turned]
      rfl

end Rounds

section Outcomes

variable {steps turns b left n : Nat} {image i j k : Image} {target : Value} {a : Address}

/-- A tagbody begins with its first section. -/
theorem Reaches.begins (t : Tagbody) (steps turns : Nat) (ordered : Ordered image.heap)
    (bound : b < image.heap.scopes.size) :
    ∃ i, t.Reaches steps turns b image (.vector (image.heap.vectors.size + 1)) turns 0 i :=
  ⟨_, .start (.begin steps turns t.token ordered bound)⟩

/-- A tagbody whose forms come to the end gives `NIL`. -/
theorem Reaches.ends {flow : Flow} (formed : t.WellFormed)
    (reaches : t.Reaches steps turns b image target (left + 1) n i)
    (ended : execBlock (callWithin (steps + 1)) turns image.heap.scopes.size (t.after n) i =
      .ok flow k) :
    evalExpr (callWithin (steps + 1)) turns b t.code image = .ok .nil k := by
  obtain ⟨-, label, found, at_⟩ := reaches.turning formed
  have turned := exec_turn_of_ok formed at_ found ended
  have last : endsLoop (some t.loopLabel) (some t.loopLabel) = true := by simp [endsLoop]
  rw [reaches.eval formed, rounds_succ, bind_assoc, bind_of_ok turned, afterTurn, if_pos last]
  rfl

/-- A tagbody lets an exit pass that is not meant for it. -/
theorem Reaches.passes (formed : t.WellFormed)
    (reaches : t.Reaches steps turns b image target (left + 1) n i)
    (ended : execBlock (callWithin (steps + 1)) turns image.heap.scopes.size (t.after n) i =
      .error (.thrown (.transfer a)) k)
    (other : isFor .tagbody target (k.heap.transfer a) = false) :
    evalExpr (callWithin (steps + 1)) turns b t.code image =
      .error (.thrown (.transfer a)) (handlerImage k image.heap.scopes.size a) := by
  obtain ⟨turning, label, found, at_⟩ := reaches.turning formed
  have turned := exec_turn_of_thrown formed (turning.left formed ended) at_ found ended
  rw [if_neg (by simp [other])] at turned
  rw [reaches.eval formed, rounds_succ, bind_assoc]
  change EStateM.bind _ _ i = _
  rw [EStateM.bind, turned]

/-- A tagbody lets every failure pass. -/
theorem Reaches.fails {interrupt : Interrupt} (formed : t.WellFormed)
    (reaches : t.Reaches steps turns b image target (left + 1) n i)
    (ended : execBlock (callWithin (steps + 1)) turns image.heap.scopes.size (t.after n) i =
      .error interrupt k)
    (failure : ∀ thrown, interrupt ≠ .thrown thrown) :
    evalExpr (callWithin (steps + 1)) turns b t.code image = .error interrupt k := by
  obtain ⟨-, label, found, at_⟩ := reaches.turning formed
  have turned := exec_turn_of_failed formed at_ found ended failure
  rw [reaches.eval formed, rounds_succ, bind_assoc]
  change EStateM.bind _ _ i = _
  rw [EStateM.bind, turned]

/-- What is at work in a section is at work in the form, whose handler is pending around it. -/
theorem Reaches.nests {β : Type} {x : Run β} {pending : List Layer} (formed : t.WellFormed)
    (reaches : t.Reaches steps turns b image target (left + 1) n i)
    (active : Active x j (execBlock (callWithin (steps + 1)) turns image.heap.scopes.size
      (t.after n)) i pending) :
    Active x j (evalExpr (callWithin (steps + 1)) turns b t.code) image
      (pending ++ [.exit image.heap.scopes.size .tagbody target]) := by
  obtain ⟨turning, label, found, at_⟩ := reaches.turning formed
  have selected : Active x j (execBlock (callWithin (steps + 1)) turns image.heap.scopes.size
      t.guardedPart) i pending := by
    have value : evalExpr (callWithin (steps + 1)) turns image.heap.scopes.size
        (.ident t.branch) i = .ok (labelValue label) i := evalExpr_ident at_.lookup
    have chosen : chooseCase (callWithin (steps + 1)) turns image.heap.scopes.size
        (labelValue label) t.cases_ i = .ok (some n) i :=
      chooseCase_label formed.distinct formed.small formed.sizes found
    have cases_ : execCases (callWithin (steps + 1)) turns image.heap.scopes.size n t.cases_ =
        execBlock (callWithin (steps + 1)) turns image.heap.scopes.size (t.after n) := by
      funext i
      exact execCases_flatten n formed.effects formed.sizes
    rw [← cases_] at active
    refine .ofStmt ?_
    rw [exec]
    exact .next value (.next chosen active)
  apply reaches.active formed
  rw [rounds_succ]
  exact .first (.intercepted formed.holding.ne_signal turning.token
    (fun a k ended => (turning.left formed (error_of_guardedPart formed at_ found ended)).token)
    selected)

/-- What identifies an activation is a vector of its own. -/
theorem Reaches.vector (reaches : t.Reaches steps turns b image target left n i) :
    target = .vector (image.heap.vectors.size + 1) ∧
      image.heap.vectors.size + 1 < i.heap.vectors.size := by
  induction reaches with
  | start entered => exact entered.vector
  | go reaches ended meant found payload ih =>
      obtain ⟨same, bound⟩ := ih
      refine ⟨same, Nat.lt_of_lt_of_le bound ?_⟩
      rename_i n i k m label a
      have adds := @execBlock_adds _ turns (callWithin_adds (steps + 1)) (t.after n)
        image.heap.scopes.size i
      rw [ended] at adds
      exact adds.vectors

/-- No two activations, of the same tagbody or of two, are identified by the same vector. -/
theorem Reaches.distinct {t' : Tagbody} {steps' turns' b' left' n' : Nat} {image' i' : Image}
    {target' : Value} (reaches : t.Reaches steps turns b image target left n i)
    (reaches' : t'.Reaches steps' turns' b' image' target' left' n' i')
    (later : i.heap.vectors.size ≤ image'.heap.vectors.size) :
    target.strictEq target' = false ∧ target'.strictEq target = false := by
  obtain ⟨rfl, bound⟩ := reaches.vector
  obtain ⟨rfl, -⟩ := reaches'.vector
  constructor
  · rw [← Bool.not_eq_true, strictEq_vector]
    intro same
    have equal : image.heap.vectors.size + 1 = image'.heap.vectors.size + 1 :=
      Value.vector.inj same
    omega
  · rw [← Bool.not_eq_true, strictEq_vector]
    intro same
    have equal : image'.heap.vectors.size + 1 = image.heap.vectors.size + 1 :=
      Value.vector.inj same
    omega

end Outcomes

end Tagbody

section Idle

variable {call : Caller} {turns b : Nat} {image : Image} {W : World} {frame : Frame} {t : Tagbody}

/-- No section refers to the activation: their code is in order where its variables are unknown. -/
structure Tagbody.Unreferenced (t : Tagbody) (frame : Frame) : Prop where
  token : frame.inside.Fresh t.token
  branch : frame.inside.Fresh t.branch
  sections : ∃ codes : List Expr, t.bodies.flatten = codes.map .effect ∧
    ∀ code ∈ codes, Derivable frame.inside (.expr code .datum)

/-- What a tagbody ends with whose sections were run through. -/
def ranThrough (c : Nat) : EStateM.Result Interrupt Image Flow → EStateM.Result Interrupt Image Value
  | .ok _ k => .ok .nil k
  | .error (.thrown (.transfer a)) k => .error (.thrown (.transfer a)) (handlerImage k c a)
  | .error interrupt k => .error interrupt k

/-- The scope of a body is described as the ones around it are. -/
theorem Discipline.World.DescribesBut.inside (describes : W.Describes image)
    (admits : W.Admits frame b) :
    ∃ W', W.Extends W' ∧ W'.Describes (image.inside b) ∧
      Own W W' (image.inside b) frame.inside image.heap.scopes.size := by
  obtain ⟨W', follows, -, described, own⟩ := (Begins.inside W frame).own describes admits
  exact ⟨W', follows.extends_, described, own⟩

/-- The identity of an activation can be described as one of any kind, as long as no code that is to
run refers to it. -/
theorem Discipline.World.DescribesBut.entering {token : String} {held : Kind}
    (describes : W.Describes image) (admits : W.Admits frame b) (ordered : Ordered image.heap)
    (fresh : frame.inside.Fresh token) (isToken : held.IsToken) (steps turns : Nat) :
    ∃ (W' : World) (i : Image),
      Entered steps turns b image token (.array []) (.vector (image.heap.vectors.size + 1)) i ∧
      W.Extends W' ∧ W'.Describes i ∧
      Own W W' i ((frame.inside.bind token held).pend [token]) image.heap.scopes.size ∧
      W'.IsToken held (.vector (image.heap.vectors.size + 1)) := by
  obtain ⟨W₁, extends₁, describes₁, own₁⟩ := describes.inside admits
  have size : (image.inside b).heap.vectors.size = image.heap.vectors.size + 1 :=
    Array.size_push ..
  have bound : b < image.heap.scopes.size := describes.scopeCount ▸ admits.lt
  obtain ⟨W₂, extends₂, -, -, describes₂, own₂, isVector⟩ :=
    own₁.bindToken describes₁ extends₁ fresh isToken
  rw [size] at describes₂ own₂ isVector
  exact ⟨W₂, _, .begin steps turns token ordered bound, extends₂, describes₂, own₂, _, _, isVector⟩

/-- Where no section refers to the activation, it begins in an image that tells its identity from what
the exits of a `GO` leave. -/
theorem Tagbody.Unreferenced.begins (unreferenced : t.Unreferenced frame) (formed : t.WellFormed)
    (describes : W.Describes image) (admits : W.Admits frame b) (ordered : Ordered image.heap)
    (steps turns : Nat) :
    ∃ (W' : World) (i : Image),
      t.Reaches steps turns b image (.vector (image.heap.vectors.size + 1)) turns 0 i ∧
      W'.Describes i ∧ W'.Admits frame.inside image.heap.scopes.size ∧
      W'.IsToken (.block false) (.vector (image.heap.vectors.size + 1)) := by
  -- As the identity of a block, which no exit of a `GO` can have as its target.
  obtain ⟨W₁, i, entered, extends₁, describes₁, own₁, token⟩ := describes.entering admits ordered
    unreferenced.token (show Kind.IsToken (.block false) from trivial) steps turns
  have unknown : ((frame.inside.bind t.token (.block false)).pend [t.token]).kinds t.branch =
      none := (Layout.bind_of_ne _ _ formed.branch_ne_token).trans unreferenced.branch.1
  obtain ⟨-, leads, describes₂, own₂⟩ := own₁.bind describes₁ extends₁ unknown
    (show World.Has _ .datum (labelValue (t.labels.headD 0)) from trivial)
    (fun same => absurd same formed.branch_ne_values) (fun token => absurd token id)
    fun _ token => absurd token id
  refine ⟨W₁.bindAt image.heap.scopes.size t.branch .datum, _, .start entered, describes₂, ?_,
    leads.grows.isToken token⟩
  refine own₂.admits.weaken fun name kind known => ?_
  have other_token : name ≠ t.token := fun same => by
    rw [same, unreferenced.token.1] at known
    cases known
  have other_branch : name ≠ t.branch := fun same => by
    rw [same, unreferenced.branch.1] at known
    cases known
  exact (Layout.bind_of_ne _ _ other_branch).trans
    ((Layout.bind_of_ne _ _ other_token).trans known)

theorem Discipline.Kind.IsToken.held {held : Kind} {value : Value} (isToken : held.IsToken)
    (has : W.Has held value) : W.IsToken held value := by
  cases held with
  | block manyValues => exact has
  | tagbody => exact has
  | _ => exact absurd isToken id

/-- Exits are for activations of one kind of form. -/
theorem Discipline.World.IsToken.not_meant {held : Kind} {kind : TransferKind} {target : Value}
    {a : Nat} (token : W.IsToken held target)
    (other : ∀ targetKind carried, Handles kind targetKind carried →
      targetKind.IsToken ∧ targetKind ≠ held)
    (describes : W.Describes image) (bound : a < W.transfers) :
    isFor kind target (image.heap.transfer a) = false := by
  rw [← Bool.not_eq_true, isFor, Bool.and_eq_true, beq_iff_eq]
  rintro ⟨kind_eq, same⟩
  have member : image.heap.transfer a ∈ image.heap.transfers := by
    rw [describes.transferCount] at bound
    simp [Heap.transfer, Array.getD, bound]
  obtain ⟨targetKind, carried, handles, has, -⟩ := describes.transfers _ member
  rw [kind_eq] at handles
  obtain ⟨isToken, ne⟩ := other _ _ handles
  obtain ⟨owner, name, address, rfl, role⟩ := token
  obtain ⟨owner', name', address', target_eq, role'⟩ := isToken.held has
  rw [target_eq, strictEq_vector] at same
  obtain rfl := Value.vector.inj same
  rw [role'] at role
  cases role
  exact ne rfl

/-- The loop of a tagbody whose sections do not refer to it goes round once. -/
theorem Tagbody.Unreferenced.runs (unreferenced : t.Unreferenced frame) (formed : t.WellFormed)
    (describes : W.Describes image) (admits : W.Admits frame b) (ordered : Ordered image.heap)
    (steps turns : Nat) :
    ∃ i, t.Reaches steps (turns + 1) b image (.vector (image.heap.vectors.size + 1)) (turns + 1) 0 i ∧
      evalExpr (callWithin (steps + 1)) (turns + 1) b t.code image =
        ranThrough image.heap.scopes.size (execBlock (callWithin (steps + 1)) (turns + 1)
          image.heap.scopes.size t.bodies.flatten i) := by
  obtain ⟨W₁, i, reaches, describes₁, admits₁, token⟩ :=
    unreferenced.begins formed describes admits ordered steps (turns + 1)
  obtain ⟨codes, codes_eq, derivable⟩ := unreferenced.sections
  have safe : Safe W₁ i (execBlock (callWithin (steps + 1)) (turns + 1) image.heap.scopes.size
      (codes.map .effect)) fun _ flow => flow = .normal :=
    Safe.effects (fun code member => (derivable code member).sound (callWithin_sound (steps + 1)))
      describes₁ admits₁
  rw [← codes_eq] at safe
  have other : ∀ targetKind carried, Handles .tagbody targetKind carried →
      targetKind.IsToken ∧ targetKind ≠ .block false := by
    rintro _ _ ⟨⟩
    exact ⟨trivial, fun same => by cases same⟩
  refine ⟨i, reaches, ?_⟩
  cases ended : execBlock (callWithin (steps + 1)) (turns + 1) image.heap.scopes.size
      t.bodies.flatten i with
  | ok flow k => exact reaches.ends formed ended
  | error interrupt k =>
      rw [Safe, ended] at safe
      cases safe with
      | thrown W' extends_ leads described fresh signal settled =>
          exact reaches.passes formed ended
            ((leads.grows.isToken token).not_meant other described signal)
      | failed W' extends_ leads described isLanguage =>
          exact reaches.fails formed ended fun _ same => by cases same
      | outOfSteps W' extends_ leads described =>
          exact reaches.fails formed ended fun _ same => by cases same

end Idle

end LispScript
