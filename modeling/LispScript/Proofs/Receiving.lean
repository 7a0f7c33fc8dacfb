import LispScript.Proofs.Copies
import LispScript.Proofs.Inlining
import LispScript.Proofs.Interception
import LispScript.Proofs.Keywords

/-!
Activations that receive arguments. The head of a function reads the vector of the arguments, sets
variables of its own scope, and makes conses and strings; it changes nothing else. What its checks and
loops come to is told from the number of the arguments.
-/

namespace LispScript

/-- A variable of a scope itself. -/
def Image.own? (image : Image) (c : Nat) (name : String) : Option Value :=
  (image.heap.scope c).vars[name]?

/-- A variable of a scope itself is set. -/
def Image.setOwn (image : Image) (c : Nat) (name : String) (value : Value) : Image :=
  { image with heap := image.heap.bindVariable c name value }

namespace Machine

open Script Compiler Discipline

variable {c : Nat} {names more : String → Prop} {i j k : Image} {name other : String}
  {value : Value}

section Sequences

variable {call : Caller} {turns : Nat} {stmt : Stmt} {code : List Stmt} {e : Interrupt}

theorem execBlock_continues (ran : exec call turns c stmt i = .ok .normal j) :
    execBlock call turns c (stmt :: code) i = execBlock call turns c code j := by
  rw [execBlock, bind_of_ok ran]

theorem execBlock_fails (failed : exec call turns c stmt i = .error e j) :
    execBlock call turns c (stmt :: code) i = .error e j := by
  rw [execBlock]
  change EStateM.bind _ _ i = _
  rw [EStateM.bind, failed]

theorem execBlock_append_continues {block : List Stmt}
    (ran : execBlock call turns c block i = .ok .normal j) :
    execBlock call turns c (block ++ code) i = execBlock call turns c code j := by
  rw [execBlock_append, bind_of_ok ran]

theorem execBlock_append_fails {block : List Stmt}
    (failed : execBlock call turns c block i = .error e j) :
    execBlock call turns c (block ++ code) i = .error e j := by
  rw [execBlock_append]
  change EStateM.bind _ _ i = _
  rw [EStateM.bind, failed]

end Sequences

section Changes

/-- The given variables of one scope have changed, and there may be new conses and strings. -/
structure Touches (c : Nat) (names : String → Prop) (i j : Image) : Prop where
  rest : ∃ cells strings scopes, j = { i with heap := { i.heap with cells, strings, scopes } }
  keeps : i.heap.Keeps j.heap
  size : j.heap.scopes.size = i.heap.scopes.size
  others : ∀ b, b ≠ c → j.heap.scope b = i.heap.scope b
  parent : (j.heap.scope c).parent = (i.heap.scope c).parent
  isFunction : (j.heap.scope c).isFunction = (i.heap.scope c).isFunction
  there : ∀ name value, i.own? c name = some value → ∃ value, j.own? c name = some value
  kept : ∀ name, ¬ names name → j.own? c name = i.own? c name

theorem Touches.refl (c : Nat) (names : String → Prop) (i : Image) : Touches c names i i :=
  ⟨⟨_, _, _, rfl⟩, .refl _, rfl, fun _ _ => rfl, rfl, rfl, fun _ value held => ⟨value, held⟩,
    fun _ _ => rfl⟩

theorem Touches.trans (first : Touches c names i j) (second : Touches c names j k) :
    Touches c names i k where
  rest := by
    obtain ⟨_, _, _, rfl⟩ := first.rest
    obtain ⟨_, _, _, rfl⟩ := second.rest
    exact ⟨_, _, _, rfl⟩
  keeps := first.keeps.trans second.keeps
  size := second.size.trans first.size
  others b ne := (second.others b ne).trans (first.others b ne)
  parent := second.parent.trans first.parent
  isFunction := second.isFunction.trans first.isFunction
  there name value held := by
    obtain ⟨middle, held⟩ := first.there name value held
    exact second.there name middle held
  kept name free := (second.kept name free).trans (first.kept name free)

theorem Touches.mono (touches : Touches c names i j) (wider : ∀ name, names name → more name) :
    Touches c more i j :=
  { touches with kept := fun name free => touches.kept name fun changed => free (wider name changed) }

theorem own?_setOwn (bound : c < i.heap.scopes.size) :
    (i.setOwn c name value).own? c name = some value :=
  bindVariable_self i.heap name value bound

theorem own?_setOwn_of_ne (bound : c < i.heap.scopes.size) (different : other ≠ name) :
    (i.setOwn c name value).own? c other = i.own? c other :=
  bindVariable_of_ne i.heap value bound different

theorem Touches.setOwn (bound : c < i.heap.scopes.size) (changed : names name) (value : Value) :
    Touches c names i (i.setOwn c name value) where
  rest := ⟨_, _, _, rfl⟩
  keeps := ⟨Nat.le_refl _, fun _ _ => rfl, Nat.le_refl _, fun _ _ => rfl⟩
  size := by simp [Image.setOwn, Heap.bindVariable]
  others b ne := by rw [Image.setOwn, bindVariable_scope i.heap name value b bound, if_neg ne]
  parent := by rw [Image.setOwn, bindVariable_scope i.heap name value c bound, if_pos rfl]
  isFunction := by rw [Image.setOwn, bindVariable_scope i.heap name value c bound, if_pos rfl]
  there other old held := by
    by_cases same : other = name
    · exact ⟨value, same ▸ own?_setOwn bound⟩
    · exact ⟨old, (own?_setOwn_of_ne bound same).trans held⟩
  kept other free := own?_setOwn_of_ne bound fun same => free (same ▸ changed)

theorem Touches.one (bound : c < i.heap.scopes.size) (name : String) (value : Value) :
    Touches c (· = name) i (i.setOwn c name value) := by
  refine .setOwn bound ?_ value
  rfl

theorem Touches.allocCell (c : Nat) (names : String → Prop) (i : Image) (car cdr : Value) :
    Touches c names i { i with heap := (i.heap.allocCell car cdr).2 } :=
  ⟨⟨_, _, _, rfl⟩, Heap.keeps_allocCell i.heap car cdr, rfl, fun _ _ => rfl, rfl, rfl,
    fun _ value held => ⟨value, held⟩, fun _ _ => rfl⟩

theorem Touches.allocString (c : Nat) (names : String → Prop) (i : Image) (text : String) :
    Touches c names i { i with heap := (i.heap.allocString text).2 } :=
  ⟨⟨_, _, _, rfl⟩, Heap.keeps_allocString i.heap text, rfl, fun _ _ => rfl, rfl, rfl,
    fun _ value held => ⟨value, held⟩, fun _ _ => rfl⟩

/-- A name that does not change has the same meaning, wherever it is bound. -/
theorem Touches.lookup (touches : Touches c names i j) (free : ¬ names name) (b : Nat) :
    j.heap.lookupVariable? b name = i.heap.lookupVariable? b name := by
  have vars : ∀ b, (j.heap.scope b).vars[name]? = (i.heap.scope b).vars[name]? := by
    intro b
    by_cases here : b = c
    · subst here
      exact touches.kept name free
    · rw [touches.others b here]
  have parents : ∀ b, (j.heap.scope b).parent = (i.heap.scope b).parent := by
    intro b
    by_cases here : b = c
    · subst here
      exact touches.parent
    · rw [touches.others b here]
  have within : ∀ limit b, j.heap.findVariableWithin name limit b =
      i.heap.findVariableWithin name limit b := by
    intro limit
    induction limit with
    | zero => exact fun _ => rfl
    | succ limit ih => intro b; simp only [Heap.findVariableWithin, vars, parents, ih]
  rw [Heap.lookupVariable?, Heap.lookupVariable?, touches.size, within]

theorem Touches.ordered (touches : Touches c names i j) (ordered : Ordered i.heap) :
    Ordered j.heap := by
  have functions : ∀ a, j.heap.function a = i.heap.function a := by
    obtain ⟨_, _, _, rfl⟩ := touches.rest
    exact fun _ => rfl
  refine ⟨touches.size ▸ ordered.global, fun b p parent => ?_, fun a params body b callable => ?_,
    fun n => (congrArg FunctionObject.callable (functions _)).trans (ordered.natives n)⟩
  · refine ordered.parents b p ?_
    by_cases here : b = c
    · subst here
      exact touches.parent ▸ parent
    · exact touches.others b here ▸ parent
  · rw [functions] at callable
    exact touches.size ▸ ordered.closures a params body b callable

end Changes

section Arguments

/-- A scope of an activation with the given arguments, the acceptor among them. -/
structure Receiving (c : Nat) (args : List Value) (i : Image) : Prop where
  ordered : Ordered i.heap
  bound : c < i.heap.scopes.size
  isFunction : (i.heap.scope c).isFunction = true
  arguments : ∃ a, i.own? c "arguments" = some (.vector a) ∧ i.heap.vector a = args.toArray
  positive : 1 ≤ args.length
  short : args.length < Number.exactLimit

theorem Receiving.touches {args : List Value} (receiving : Receiving c args i)
    (touches : Touches c names i j) (free : ¬ names "arguments") :
    Receiving c args j := by
  obtain ⟨a, held, items⟩ := receiving.arguments
  refine ⟨touches.ordered receiving.ordered, touches.size ▸ receiving.bound,
    touches.isFunction.trans receiving.isFunction,
    ⟨a, (touches.kept _ free).trans held, ?_⟩, receiving.positive, receiving.short⟩
  obtain ⟨_, _, _, rfl⟩ := touches.rest
  exact items

variable {call : Caller} {turns : Nat} {args : List Value} {e : Expr} {n : Nat}
  (receiving : Receiving c args i)
include receiving

theorem Receiving.settles_own (held : i.own? c name = some value) :
    Settles call turns c i (.ident name) value :=
  evalExpr_ident (lookupVariable?_own receiving.bound held)

theorem Receiving.settles_length :
    Settles call turns c i argumentsLength (countValue args.length) := by
  obtain ⟨a, held, items⟩ := receiving.arguments
  have found : Settles call turns c i argumentsLength (countValue (i.heap.vector a).size) :=
    argumentsLength_ok (lookupVariable?_own receiving.bound held)
  rwa [items, List.size_toArray] at found

theorem Receiving.settles_count :
    Settles call turns c i argumentCount (countValue (args.length - 1)) := by
  obtain ⟨a, held, items⟩ := receiving.arguments
  have size : (i.heap.vector a).size = args.length := by rw [items, List.size_toArray]
  have found : Settles call turns c i argumentCount (countValue ((i.heap.vector a).size - 1)) :=
    argumentCount_ok (lookupVariable?_own receiving.bound held) (size ▸ receiving.positive)
      (size ▸ receiving.short)
  rwa [size] at found

theorem Receiving.settles_argument (position : Settles call turns c i e (countValue n))
    (found : args[n]? = some value) :
    Settles call turns c i (argumentAt e) value := by
  obtain ⟨a, held, items⟩ := receiving.arguments
  have small : n < Number.exactLimit :=
    Nat.lt_trans (List.getElem?_eq_some_iff.mp found).1 receiving.short
  have read := argumentAt_ok (lookupVariable?_own receiving.bound held) position small
  rwa [items, List.getElem?_toArray, found] at read

/-- An assignment to a variable of the scope. -/
theorem Receiving.evalExpr_assignVar {old : Value}
    (ok : evalExpr call turns c e i = .ok value j) (touches : Touches c names i j)
    (there : i.own? c name = some old) :
    evalExpr call turns c (assignVar name e) i = .ok value (j.setOwn c name value) := by
  have bound : c < j.heap.scopes.size := touches.size ▸ receiving.bound
  obtain ⟨still, held⟩ := touches.there name old there
  have owner : j.heap.variableScope? c name = some c := by
    obtain ⟨n, size_eq⟩ : ∃ n, j.heap.scopes.size = n + 1 := ⟨j.heap.scopes.size - 1, by omega⟩
    have contains : (j.heap.scope c).vars.contains name = true := contains_iff_exists.mpr ⟨_, held⟩
    simp [Heap.variableScope?, size_eq, Heap.findScopeWithin, contains]
  have assigned : assignTo call turns c value (.ident name) j =
      .ok () (j.setOwn c name value) := by
    rw [assignTo_ident_eq, owner]
    rfl
  rw [assignVar, evalExpr, bind_of_ok ok, bind_of_ok assigned]
  rfl

theorem Receiving.exec_assignStmt {old : Value}
    (ok : evalExpr call turns c e i = .ok value j) (touches : Touches c names i j)
    (there : i.own? c name = some old) :
    exec call turns c (assignStmt name e) i = .ok .normal (j.setOwn c name value) := by
  rw [assignStmt, exec, bind_of_ok (receiving.evalExpr_assignVar ok touches there)]
  rfl

theorem Receiving.functionScope : i.heap.functionScope c = c := by
  obtain ⟨n, size_eq⟩ : ∃ n, i.heap.scopes.size = n + 1 :=
    ⟨i.heap.scopes.size - 1, by have := receiving.bound; omega⟩
  simp [Heap.functionScope, size_eq, Heap.findScopeWithin, receiving.isFunction]

theorem Receiving.exec_define (settles : Settles call turns c i e value) :
    exec call turns c (.define name e) i = .ok .normal (i.setOwn c name value) := by
  rw [exec, bind_of_ok settles]
  change EStateM.Result.ok Flow.normal
    { i with heap := i.heap.defineVariable c name value } = _
  rw [Heap.defineVariable, receiving.functionScope]
  rfl

/-- A declaration makes a variable, unless it is there. -/
theorem Receiving.exec_declare (name : String) :
    ∃ j, exec call turns c (.declare name) i = .ok .normal j ∧ Touches c (· = name) i j ∧
      (∃ value, j.own? c name = some value) ∧
      (i.own? c name = none → j.own? c name = some .undefined) := by
  have run : exec call turns c (.declare name) i =
      .ok .normal { i with heap := i.heap.declareVariable c name } := by
    rw [exec]
    rfl
  cases held : i.own? c name with
  | some value =>
      have contains : (i.heap.scope c).vars.contains name = true :=
        contains_iff_exists.mpr ⟨value, held⟩
      refine ⟨i, run.trans ?_, .refl .., ⟨value, held⟩, nofun⟩
      rw [Heap.declareVariable, receiving.functionScope]
      simp only [contains, if_true]
  | none =>
      have absent : (i.heap.scope c).vars.contains name = false := by
        rw [Std.TreeMap.contains_eq_isSome_getElem?]
        exact congrArg Option.isSome held
      have touches := Touches.one receiving.bound name .undefined
      refine ⟨_, run.trans ?_, touches, ⟨_, own?_setOwn receiving.bound⟩,
        fun _ => own?_setOwn receiving.bound⟩
      rw [Heap.declareVariable, receiving.functionScope]
      simp only [absent, Bool.false_eq_true, if_false]
      rfl

end Arguments

section Checks

variable {steps turns : Nat} {args : List Value} {count n : Nat}

/-- A check of a number, by whatever relation. -/
theorem checkCount_eq (fits : Nat → Nat → Bool) (expected : Nat → String)
    (small : count < Number.exactLimit) :
    checkCount [countValue count, countValue n] fits expected i =
      if fits count (Number.toCount (Float.ofNat n)) then .ok .undefined i
      else .error (.failed (.arity (expected (Number.toCount (Float.ofNat n))) count)) i := by
  unfold checkCount
  change (Machine.count (countValue count) >>= _) i = _
  rw [bind_of_ok (count_ok count), Number.toCount_ofNat small]
  change (Machine.count (countValue n) >>= _) i = _
  rw [bind_of_ok (count_ok n)]
  split <;> rfl

/-- The statement that checks the number of arguments. -/
theorem Receiving.exec_check (receiving : Receiving c args i) (routine : Routine)
    (fits : Nat → Nat → Bool) (expected : Nat → String)
    (is : ∀ inner args, runNative inner (.routine routine) args = checkCount args fits expected)
    (n : Nat) :
    exec (callWithin (steps + 1)) turns c
        (.effect (.callRoutine routine [argumentCount, countLiteral n])) i =
      if fits (args.length - 1) (Number.toCount (Float.ofNat n)) then .ok .normal i
      else .error (.failed (.arity (expected (Number.toCount (Float.ofNat n)))
        (args.length - 1))) i := by
  have done : evalList (callWithin (steps + 1)) turns c [argumentCount, countLiteral n] i =
      .ok [countValue (args.length - 1), countValue n] i :=
    evalList_settled (.cons receiving.settles_count (.cons (evalExpr_countLiteral ..) .nil))
  have small : args.length - 1 < Number.exactLimit :=
    Nat.lt_of_le_of_lt (Nat.sub_le ..) receiving.short
  have run := evalExpr_callRoutine (r := routine) receiving.ordered done
  rw [is, checkCount_eq fits expected small] at run
  rw [exec]
  split at run
  · rename_i fit
    rw [bind_of_ok run, if_pos fit]
    rfl
  · rename_i unfit
    change EStateM.bind _ _ i = _
    rw [EStateM.bind, run, if_neg unfit]

end Checks

section Loops

/-- The turns of a loop, once its start has been evaluated. -/
def loopTurns (call : Caller) (turns c : Nat) (test update : Expr) (body : List Stmt) :
    Nat → Run Flow :=
  repeatWhile none (evalExpr call turns c test) do
    match ← execBlock call turns c body with
    | .normal => do
        let _ ← evalExpr call turns c update
        return .normal
    | flow => return flow

variable {call : Caller} {turns : Nat} {start test update : Expr} {body : List Stmt}
  {at_ : Nat → Image → Prop} {m n : Nat}

theorem exec_iterate (started : evalExpr call turns c start i = .ok value j) :
    exec call turns c (.iterate start test update body) i =
      loopTurns call turns c test update body turns j := by
  rw [exec, bind_of_ok started]
  rfl

/-- A loop that goes on from place to place gets to any place before which no turn leaves it. -/
theorem loopTurns_advances
    (turn : ∀ k i, at_ k i → k < m → Settles call turns c i test (.bool true) ∧
      ∃ j value next, execBlock call turns c body i = .ok .normal j ∧
        evalExpr call turns c update j = .ok value next ∧ at_ (k + 1) next)
    {left : Nat} (le : n ≤ m) (enough : m - n ≤ left) (there : at_ n i) :
    ∃ j, at_ m j ∧ loopTurns call turns c test update body left i =
      loopTurns call turns c test update body (left - (m - n)) j := by
  obtain ⟨far, far_eq⟩ : ∃ far, far = m - n := ⟨_, rfl⟩
  rw [← far_eq] at enough ⊢
  induction far generalizing n left i with
  | zero =>
      obtain rfl : n = m := by omega
      exact ⟨i, there, by rw [Nat.sub_zero]⟩
  | succ far ih =>
      obtain ⟨test_ok, j, value, next, ran, updated, onward⟩ := turn n i there (by omega)
      obtain ⟨left, rfl⟩ : ∃ t, left = t + 1 := ⟨left - 1, by omega⟩
      obtain ⟨last, arrived, same⟩ : ∃ j, at_ m j ∧
          loopTurns call turns c test update body left next =
            loopTurns call turns c test update body (left - far) j :=
        ih (by omega) onward (by omega) (by omega)
      refine ⟨last, arrived, ?_⟩
      rw [Nat.add_sub_add_right, ← same, loopTurns, repeatWhile, bind_of_ok test_ok]
      change ((execBlock call turns c body >>= _) >>= _) i = _
      rw [bind_assoc, bind_of_ok ran]
      change ((evalExpr call turns c update >>= _) >>= _) j = _
      rw [bind_assoc, bind_of_ok updated]
      rfl

theorem loopTurns_stops {left : Nat} (positive : 0 < left)
    (test_ok : Settles call turns c i test (.bool false)) :
    loopTurns call turns c test update body left i = .ok .normal i := by
  obtain ⟨left, rfl⟩ : ∃ t, left = t + 1 := ⟨left - 1, by omega⟩
  rw [loopTurns, repeatWhile, bind_of_ok test_ok]
  rfl

/-- A turn that leaves the loop ends it. -/
theorem loopTurns_leaves {left : Nat} (positive : 0 < left)
    (test_ok : Settles call turns c i test (.bool true))
    (ran : execBlock call turns c body i = .ok (.left none) j) :
    loopTurns call turns c test update body left i = .ok .normal j := by
  obtain ⟨left, rfl⟩ : ∃ t, left = t + 1 := ⟨left - 1, by omega⟩
  rw [loopTurns, repeatWhile, bind_of_ok test_ok]
  change ((execBlock call turns c body >>= _) >>= _) i = _
  rw [bind_assoc, bind_of_ok ran]
  rfl

/-- A turn that fails ends the loop. -/
theorem loopTurns_fails {left : Nat} {e : Interrupt} (positive : 0 < left)
    (test_ok : Settles call turns c i test (.bool true))
    (failed : execBlock call turns c body i = .error e j) :
    loopTurns call turns c test update body left i = .error e j := by
  obtain ⟨left, rfl⟩ : ∃ t, left = t + 1 := ⟨left - 1, by omega⟩
  rw [loopTurns, repeatWhile, bind_of_ok test_ok]
  change ((execBlock call turns c body >>= _) >>= _) i = _
  rw [bind_assoc]
  change EStateM.bind _ _ i = _
  rw [EStateM.bind, failed]

end Loops

end Machine

end LispScript
