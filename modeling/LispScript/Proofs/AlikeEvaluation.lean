import LispScript.Proofs.AlikeRuns

/-!
Code evaluated in images that are alike ends alike. What stands in a scope that only adds `arguments`
to the scope around it may be evaluated in either of them, if it has no `arguments` of its own.
-/

namespace LispScript

namespace Script

mutual

/-- The code has to do with no `arguments` but those of its own functions. -/
def Expr.Plain : Expr → Prop
  | .ident name => name ≠ "arguments"
  | .member object _ => object.Plain
  | .index object position => object.Plain ∧ position.Plain
  | .call callee args => callee.Plain ∧ Expr.PlainAll args
  | .array items | .comma items => Expr.PlainAll items
  | .binary _ left right => left.Plain ∧ right.Plain
  | .unary _ operand => operand.Plain
  | .cond test yes no => test.Plain ∧ yes.Plain ∧ no.Plain
  | .assign target value => target.Plain ∧ value.Plain
  | .number _ | .string _ | .bool _ | .undefined | .support _ | .function _ _ => True

def Expr.PlainAll : List Expr → Prop
  | [] => True
  | code :: rest => code.Plain ∧ Expr.PlainAll rest

end

end Script

namespace Machine.Pairing

open Script

variable {m m' : Pairing}

inductive SameFlow (m : Pairing) : Flow → Flow → Prop where
  | normal : SameFlow m .normal .normal
  | returned {v w : Value} (same : m.Same v w) : SameFlow m (.returned v) (.returned w)
  | left (label : Option String) : SameFlow m (.left label) (.left label)

theorem SameFlow.mono {flow flow' : Flow} (same : m.SameFlow flow flow') (grows : m.Grows m') :
    m'.SameFlow flow flow' := by
  cases same with
  | normal => exact .normal
  | returned same => exact .returned (same.mono grows)
  | left label => exact .left label

theorem SameInterrupt.mono {x y : Interrupt} (same : m.SameInterrupt x y) (grows : m.Grows m') :
    m'.SameInterrupt x y := by
  cases same with
  | thrown same => exact .thrown (same.mono grows)
  | failed error => exact .failed error
  | outOfSteps => exact .outOfSteps

/-- Calls end alike. -/
def SameCalls (call : Caller) : Prop :=
  ∀ (m : Pairing) {function function' : Value} {args args' : List Value}, m.Same function function' →
    m.SameList args args' → m.Sim (call function args) (call function' args') Same

/-- Scopes in which code means the same. -/
def Views (m : Pairing) (c d : Address) (plain : Prop) : Prop := m.scopes c d ∨ m.Loose c d ∧ plain

theorem Views.mono {c d : Address} {plain : Prop} (views : m.Views c d plain) (grows : m.Grows m') :
    m'.Views c d plain :=
  views.imp (grows.scopes c d) fun held => ⟨held.1.mono grows, held.2⟩

theorem Views.imp {c d : Address} {plain other : Prop} (views : m.Views c d plain)
    (imp : plain → other) : m.Views c d other :=
  Or.imp_right (fun held => ⟨held.1, imp held.2⟩) views

theorem Views.loose {c d : Address} {plain : Prop} (views : m.Views c d plain) : m.Loose c d :=
  views.elim .scopes And.left

namespace Sim

section Scopes

variable {c d : Address} {args args' : List Value}

/-- Variables with the same values. -/
def SameVariables (m : Pairing) (x y : Variables) : Prop :=
  ∀ name : String, m.SameSlot x[name]? y[name]?

theorem SameVariables.insert {x y : Variables} (same : SameVariables m x y) (name : String)
    {v w : Value} (new : m.Same v w) : SameVariables m (x.insert name v) (y.insert name w) := by
  intro other
  rw [Std.TreeMap.getElem?_insert, Std.TreeMap.getElem?_insert]
  split
  · exact .some new
  · exact same other

theorem parameterVariables (params : List String) (same : m.SameList args args') {x y : Variables}
    (vars : SameVariables m x y) :
    SameVariables m (parameterVariables params args x) (parameterVariables params args' y) := by
  induction params generalizing args args' x y with
  | nil => exact vars
  | cons param params ih =>
      refine ih same.tail (vars.insert param ?_)
      cases same with
      | nil => exact .undefined
      | cons first _ => exact first

theorem openActivation (loose : m.Loose c d) (params : List String) (same : m.SameList args args') :
    m.Sim (openActivation c params args) (openActivation d params args') fun m' => m'.scopes := by
  have opened : ∀ m', m.Grows m' → m'.Sim
      (do
        let vector ← Run.onHeap (·.allocVector args.toArray)
        let vars := (Machine.parameterVariables params args {}).insert "arguments" vector
        Run.onHeap (·.allocScope ⟨vars, some c, true⟩))
      (do
        let vector ← Run.onHeap (·.allocVector args'.toArray)
        let vars := (Machine.parameterVariables params args' {}).insert "arguments" vector
        Run.onHeap (·.allocScope ⟨vars, some d, true⟩)) fun m' => m'.scopes := by
    intro m' grows
    refine .bind (.newVector (same.mono grows)) fun m'' v w more vector => .onHeap fun h k alike => ?_
    have grows := grows.trans more
    have loose := loose.mono grows
    obtain ⟨left, right⟩ := loose.lt alike
    have none : SameVariables m'' {} {} := fun name => by
      rw [Std.TreeMap.getElem?_emptyc]
      exact .none
    have vars := (parameterVariables params (same.mono grows) none).insert "arguments" vector
    refine alike.allocScope ⟨rfl, vars, .some ⟨loose, nofun⟩, fun _ _ => ?_⟩ ?_ ?_
    · rw [Std.TreeMap.getElem?_insert_self]
      rfl
    · rintro _ ⟨⟩
      exact left
    · rintro _ ⟨⟩
      exact right
  rw [Machine.openActivation, Machine.openActivation, List.Forall₂.length_eq same]
  split
  · exact .bind (.interrupt (A := Equal) .outOfSteps) fun m' _ _ grows _ => opened m' grows
  · exact opened m (.refl m)

theorem openHandler (held : m.scopes c d) (param : String) {v w : Value} (same : m.Same v w) :
    m.Sim (openHandler c param v) (openHandler d param w) fun m' => m'.scopes := by
  refine .onHeap fun h k alike => ?_
  obtain ⟨left, right⟩ := alike.scopes.lt held
  have vars : SameVariables m (({} : Variables).insert param v) (({} : Variables).insert param w) :=
    SameVariables.insert (fun _ => by simp) param same
  refine alike.allocScope ⟨rfl, vars, .some ⟨.scopes held, fun _ => held⟩, nofun⟩ ?_ ?_
  · rintro _ ⟨⟩
    exact left
  · rintro _ ⟨⟩
    exact right

theorem resultOf {flow flow' : Flow} (same : m.SameFlow flow flow') :
    m.Sim (resultOf flow) (resultOf flow') Same := by
  cases same with
  | normal => exact .pure .undefined
  | returned same => exact .pure same
  | left label => exact .fail _

end Scopes

section Control

theorem handling {block block' : Run Flow} {handler handler' : Value → Run Flow}
    (blocks : m.Sim block block' SameFlow)
    (handlers : ∀ m' v w, m.Grows m' → m'.Same v w → m'.Sim (handler v) (handler' w) SameFlow) :
    m.Sim (handling block handler) (handling block' handler') SameFlow := by
  intro i j alike
  rw [Machine.handling, Machine.handling]
  have agree := blocks i j alike
  generalize block i = r at agree ⊢
  generalize block' j = r' at agree ⊢
  cases agree with
  | ok grows alike held => exact .ok grows alike held
  | error grows alike same =>
      cases same with
      | thrown same => exact (handlers _ _ _ grows same _ _ alike).since grows
      | failed error => exact .error grows alike (.failed error)
      | outOfSteps => exact .error grows alike .outOfSteps

/-- A cleanup after an interrupt, which goes on unless the cleanup leaves in another way. -/
theorem cleanupAfter {cleanup cleanup' : Run Flow} (cleanups : m.Sim cleanup cleanup' SameFlow)
    {i j : Image} (alike : m.Alike i j) {x y : Interrupt} (same : m.SameInterrupt x y) :
    m.Agree SameFlow
      (match cleanup i with
        | .ok .normal image => .error x image
        | result => result)
      (match cleanup' j with
        | .ok .normal image => .error y image
        | result => result) := by
  have agree := cleanups i j alike
  generalize cleanup i = r at agree ⊢
  generalize cleanup' j = r' at agree ⊢
  cases agree with
  | ok more alike ended =>
      cases ended with
      | normal => exact .error more alike (same.mono more)
      | returned same => exact .ok more alike (.returned same)
      | left label => exact .ok more alike (.left label)
  | error more alike same => exact .error more alike same

theorem ensuring {block block' cleanup cleanup' : Run Flow} (blocks : m.Sim block block' SameFlow)
    (cleanups : ∀ m', m.Grows m' → m'.Sim cleanup cleanup' SameFlow) :
    m.Sim (ensuring block cleanup) (ensuring block' cleanup') SameFlow := by
  intro i j alike
  rw [Machine.ensuring, Machine.ensuring]
  have agree := blocks i j alike
  generalize block i = r at agree ⊢
  generalize block' j = r' at agree ⊢
  cases agree with
  | @ok m' i j flow flow' grows alike held =>
      refine Agree.since ?_ grows
      have agree := cleanups m' grows i j alike
      dsimp only
      generalize cleanup i = r at agree ⊢
      generalize cleanup' j = r' at agree ⊢
      cases agree with
      | ok more alike ended =>
          cases ended with
          | normal => exact .ok more alike (held.mono more)
          | returned same => exact .ok more alike (.returned same)
          | left label => exact .ok more alike (.left label)
      | error more alike same => exact .error more alike same
  | @error m' i j x y grows alike same =>
      have after := cleanupAfter (cleanups m' grows) alike same
      cases same with
      | outOfSteps => exact .error grows alike .outOfSteps
      | thrown same => exact after.since grows
      | failed error => exact after.since grows

theorem repeatWhile {label : Option String} {test test' : Run Value} {body body' : Run Flow}
    (tests : ∀ m', m.Grows m' → m'.Sim test test' Same)
    (bodies : ∀ m', m.Grows m' → m'.Sim body body' SameFlow) (turns : Nat) :
    m.Sim (repeatWhile label test body turns) (repeatWhile label test' body' turns) SameFlow := by
  induction turns generalizing m with
  | zero => exact .interrupt .outOfSteps
  | succ turns ih =>
      simp only [Machine.repeatWhile]
      refine .bind (tests m (.refl m)) fun m' v w grows same => ?_
      rw [same.truthy]
      split
      · refine .bind (bodies m' grows) fun m'' flow flow' more same => ?_
        have grows := grows.trans more
        cases same with
        | normal =>
            exact ih (fun _ more => tests _ (grows.trans more))
              fun _ more => bodies _ (grows.trans more)
        | left target => exact .pure (by split <;> constructor)
        | returned same => exact .pure (.returned same)
      · exact .pure .normal

end Control

section Evaluation

variable {call : Caller} {turns : Nat} (calls : SameCalls call)

include calls

set_option linter.unusedSectionVars false in
mutual

theorem evalExpr :
    ∀ (code : Expr) {m : Pairing} {c d : Nat}, m.Views c d code.Plain →
      m.Sim (evalExpr call turns c code) (evalExpr call turns d code) Same
  | .number n, m, c, d, _ => by
      simp only [Machine.evalExpr]
      exact .pure (.number n)
  | .string text, m, c, d, _ => by
      simp only [Machine.evalExpr]
      exact .newString text
  | .bool b, m, c, d, _ => by
      simp only [Machine.evalExpr]
      exact .pure (.bool b)
  | .undefined, m, c, d, _ => by
      simp only [Machine.evalExpr]
      exact .pure .undefined
  | .ident name, m, c, d, views => by
      simp only [Machine.evalExpr]
      refine .withHeap fun h k alike => ?_
      have found := alike.lookupVariable? views
      generalize h.lookupVariable? c name = slot at found ⊢
      generalize k.lookupVariable? d name = slot' at found ⊢
      cases found with
      | some same => exact .pure same
      | none => exact .fail _
  | .support member, m, c, d, _ => by
      simp only [Machine.evalExpr]
      cases member with
      | nil => exact .pure .nil
      | t => exact .pure (.symbol _)
      | native n => exact fun i j alike => .ok (.refl m) alike (.function (alike.heap.natives n))
      | absent name => exact .fail _
  | .member object property, m, c, d, views => by
      simp only [Machine.evalExpr]
      exact .bind (evalExpr object views) fun m' v w _ same => .getProperty same property
  | .index object position, m, c, d, views => by
      simp only [Machine.evalExpr]
      refine .bind (evalExpr object (views.imp And.left)) fun m' v w grows same => ?_
      refine .bind (evalExpr position ((views.imp And.right).mono grows)) fun m'' v' w' more at_ => ?_
      exact .getElement (same.mono more) at_
  | .call callee args, m, c, d, views => by
      have given {m' : Pairing} (grows : m.Grows m') :=
        evalList args ((views.imp And.right).mono grows)
      by_cases literal : ∃ params body, callee = .function params body
      · obtain ⟨params, body, rfl⟩ := literal
        simp only [Machine.evalExpr]
        refine .bind (given (.refl m)) fun m' values values' grows same => ?_
        refine .bind (.openActivation (views.loose.mono grows) params same) fun m'' c' d' more held => ?_
        exact .bind (execBlock body held) fun _ _ _ _ same => .resultOf same
      · have unfolded (c : Nat) : Machine.evalExpr call turns c (.call callee args) =
            (Machine.evalExpr call turns c callee >>= fun function =>
              Machine.evalList call turns c args >>= fun values => call function values) := by
          rw [Machine.evalExpr]
          exact fun params body same => literal ⟨params, body, same⟩
        rw [unfolded, unfolded]
        refine .bind (evalExpr callee (views.imp And.left)) fun m' v w grows same => ?_
        exact .bind (given grows) fun m'' values values' more all => calls m'' (same.mono more) all
  | .function params body, m, c, d, views => by
      simp only [Machine.evalExpr]
      exact .onHeap fun _ _ alike => alike.allocFunction (.closure params body views.loose)
  | .array items, m, c, d, views => by
      simp only [Machine.evalExpr]
      exact .bind (evalList items views) fun _ _ _ _ same => .newVector same
  | .binary op left right, m, c, d, views => by
      have first := evalExpr left (views.imp And.left)
      have second {m' : Pairing} (grows : m.Grows m') :=
        evalExpr right ((views.imp And.right).mono grows)
      cases op
      case and =>
        simp only [Machine.evalExpr]
        refine .bind first fun m' v w grows same => ?_
        rw [same.truthy]
        split
        · exact second grows
        · exact .pure same
      case or =>
        simp only [Machine.evalExpr]
        refine .bind first fun m' v w grows same => ?_
        rw [same.truthy]
        split
        · exact .pure same
        · exact second grows
      all_goals
        simp only [Machine.evalExpr]
        exact .bind first fun m' v w grows same => .bind (second grows) fun _ _ _ more other =>
          .applyBinary _ (same.mono more) other
  | .unary op operand, m, c, d, views => by
      simp only [Machine.evalExpr]
      exact .bind (evalExpr operand views) fun _ _ _ _ same => .applyUnary op same
  | .cond test yes no, m, c, d, views => by
      simp only [Machine.evalExpr]
      refine .bind (evalExpr test (views.imp And.left)) fun m' v w grows same => ?_
      rw [same.truthy]
      split
      · exact evalExpr yes ((views.imp fun plain => plain.2.1).mono grows)
      · exact evalExpr no ((views.imp fun plain => plain.2.2).mono grows)
  | .assign target value, m, c, d, views => by
      simp only [Machine.evalExpr]
      refine .bind (evalExpr value (views.imp And.right)) fun m' v w grows same => ?_
      refine .bind (assignTo target ((views.imp And.left).mono grows) same) fun m'' _ _ more _ => ?_
      exact .pure (same.mono more)
  | .comma items, m, c, d, views => by
      simp only [Machine.evalExpr]
      exact .bind (evalList items views) fun _ _ _ _ same =>
        .pure (SameSlot.getD same.getLast? .undefined)

theorem evalList :
    ∀ (codes : List Expr) {m : Pairing} {c d : Nat}, m.Views c d (Expr.PlainAll codes) →
      m.Sim (evalList call turns c codes) (evalList call turns d codes) SameList
  | [], m, c, d, _ => by
      simp only [Machine.evalList]
      exact .pure .nil
  | code :: rest, m, c, d, views => by
      simp only [Machine.evalList]
      refine .bind (evalExpr code (views.imp And.left)) fun m' v w grows same => ?_
      refine .bind (evalList rest ((views.imp And.right).mono grows)) fun m'' vs ws more others => ?_
      exact .pure (.cons (same.mono more) others)

theorem assignTo :
    ∀ (target : Expr) {m : Pairing} {c d : Nat} {v w : Value}, m.Views c d target.Plain →
      m.Same v w → m.Sim (assignTo call turns c v target) (assignTo call turns d w target) Equal
  | .ident name, m, c, d, v, w, views, same => by
      simp only [Machine.assignTo]
      refine .withHeap fun h k alike => ?_
      have found := alike.variableScope? views
      generalize h.variableScope? c name = owner at found ⊢
      generalize k.variableScope? d name = owner' at found ⊢
      cases found with
      | some held => exact .modifyHeap fun _ _ alike => alike.bindVariable held name same
      | none => exact .fail _
  | .member object property, m, c, d, v, w, views, same => by
      simp only [Machine.assignTo]
      exact .bind (evalExpr object views) fun m' _ _ grows held =>
        .setProperty held property (same.mono grows)
  | .index object position, m, c, d, v, w, views, same => by
      simp only [Machine.assignTo]
      refine .bind (evalExpr object (views.imp And.left)) fun m' _ _ grows held => ?_
      refine .bind (evalExpr position ((views.imp And.right).mono grows)) fun m'' _ _ more at_ => ?_
      exact .setElement (held.mono more) at_ (same.mono (grows.trans more))
  | .number _, m, c, d, v, w, _, _ | .string _, m, c, d, v, w, _, _ | .bool _, m, c, d, v, w, _, _
  | .undefined, m, c, d, v, w, _, _ | .support _, m, c, d, v, w, _, _
  | .call _ _, m, c, d, v, w, _, _ | .function _ _, m, c, d, v, w, _, _
  | .array _, m, c, d, v, w, _, _ | .binary _ _ _, m, c, d, v, w, _, _
  | .unary _ _, m, c, d, v, w, _, _ | .cond _ _ _, m, c, d, v, w, _, _
  | .assign _ _, m, c, d, v, w, _, _ | .comma _, m, c, d, v, w, _, _ => by
      simp only [Machine.assignTo]
      exact .fail _

theorem exec :
    ∀ (stmt : Stmt) {m : Pairing} {c d : Nat}, m.scopes c d →
      m.Sim (exec call turns c stmt) (exec call turns d stmt) SameFlow
  | .declare name, m, c, d, held => by
      simp only [Machine.exec]
      exact .bind (.modifyHeap fun _ _ alike => alike.declareVariable held name) fun _ _ _ _ _ =>
        .pure .normal
  | .define name value, m, c, d, held => by
      simp only [Machine.exec]
      refine .bind (evalExpr value (.inl held)) fun m' v w grows same => ?_
      exact .bind (.modifyHeap fun _ _ alike =>
        alike.defineVariable (grows.scopes c d held) name same) fun _ _ _ _ _ => .pure .normal
  | .effect value, m, c, d, held => by
      simp only [Machine.exec]
      exact .bind (evalExpr value (.inl held)) fun _ _ _ _ _ => .pure .normal
  | .ret value, m, c, d, held => by
      simp only [Machine.exec]
      exact .bind (evalExpr value (.inl held)) fun _ _ _ _ same => .pure (.returned same)
  | .branch test yes no, m, c, d, held => by
      simp only [Machine.exec]
      refine .bind (evalExpr test (.inl held)) fun m' v w grows same => ?_
      rw [same.truthy]
      split
      · exact execBlock yes (grows.scopes c d held)
      · exact execBlock no (grows.scopes c d held)
  | .loop label test body, m, c, d, held => by
      simp only [Machine.exec]
      exact .repeatWhile (fun _ grows => evalExpr test (.inl (grows.scopes c d held)))
        (fun _ grows => execBlock body (grows.scopes c d held)) turns
  | .iterate start test update body, m, c, d, held => by
      simp only [Machine.exec]
      refine .bind (evalExpr start (.inl held)) fun m' _ _ grows _ => ?_
      have held := grows.scopes c d held
      refine .repeatWhile (fun _ grows => evalExpr test (.inl (grows.scopes c d held)))
        (fun _ grows => ?_) turns
      refine .bind (execBlock body (grows.scopes c d held)) fun m'' _ _ more same => ?_
      cases same with
      | normal =>
          exact .bind (evalExpr update (.inl ((grows.trans more).scopes c d held))) fun _ _ _ _ _ =>
            .pure .normal
      | returned same => exact .pure (.returned same)
      | left label => exact .pure (.left label)
  | .select subject cases_, m, c, d, held => by
      simp only [Machine.exec]
      refine .bind (evalExpr subject (.inl held)) fun m' v w grows same => ?_
      have held := grows.scopes c d held
      refine .bind (chooseCase cases_ held same) fun m'' chosen _ more equal => ?_
      cases equal
      cases chosen.orElse fun _ => cases_.findIdx? (·.isDefault) with
      | some start => exact execCases cases_ start (more.scopes c d held)
      | none => exact .pure .normal
  | .leave label, m, c, d, held => by
      simp only [Machine.exec]
      exact .pure (.left label)
  | .raise value, m, c, d, held => by
      simp only [Machine.exec]
      exact .bind (evalExpr value (.inl held)) fun _ _ _ _ same => .interrupt (.thrown same)
  | .guarded block handler cleanup, m, c, d, held => by
      have blocks := execBlock block held
      cases handler with
      | none =>
          cases cleanup with
          | none =>
              simp only [Machine.exec]
              exact blocks
          | always after =>
              simp only [Machine.exec]
              exact .ensuring blocks fun _ grows => execBlock after (grows.scopes c d held)
      | catching param body =>
          have caught {m' : Pairing} {v w : Value} (grows : m.Grows m') (same : m'.Same v w) :
              m'.Sim
                (Machine.openHandler c param v >>= fun inner => Machine.execBlock call turns inner body)
                (Machine.openHandler d param w >>= fun inner => Machine.execBlock call turns inner body)
                SameFlow :=
            .bind (.openHandler (grows.scopes c d held) param same) fun _ _ _ _ inner =>
              execBlock body inner
          have handled := handling blocks fun _ _ _ grows same => caught grows same
          cases cleanup with
          | none =>
              simp only [Machine.exec]
              exact handled
          | always after =>
              simp only [Machine.exec]
              exact .ensuring handled fun _ grows => execBlock after (grows.scopes c d held)

theorem execBlock :
    ∀ (stmts : List Stmt) {m : Pairing} {c d : Nat}, m.scopes c d →
      m.Sim (execBlock call turns c stmts) (execBlock call turns d stmts) SameFlow
  | [], m, c, d, _ => by
      simp only [Machine.execBlock]
      exact .pure .normal
  | stmt :: rest, m, c, d, held => by
      simp only [Machine.execBlock]
      refine .bind (exec stmt held) fun m' _ _ grows same => ?_
      cases same with
      | normal => exact execBlock rest (grows.scopes c d held)
      | returned same => exact .pure (.returned same)
      | left label => exact .pure (.left label)

theorem chooseCase :
    ∀ (cases_ : List Case) {m : Pairing} {c d : Nat} {v w : Value}, m.scopes c d → m.Same v w →
      m.Sim (chooseCase call turns c v cases_) (chooseCase call turns d w cases_) Equal
  | [], m, c, d, v, w, _, _ => by
      simp only [Machine.chooseCase]
      exact .pure rfl
  | .otherwise body :: rest, m, c, d, v, w, held, same => by
      simp only [Machine.chooseCase]
      exact .bind (chooseCase rest held same) fun _ _ _ _ equal => .pure (equal ▸ rfl)
  | .case test body :: rest, m, c, d, v, w, held, same => by
      simp only [Machine.chooseCase]
      refine .bind (evalExpr test (.inl held)) fun m' v' w' grows other i j alike => ?_
      rw [alike.heap.strictEq (same.mono grows) other]
      refine (?_ : m'.Sim _ _ Equal) i j alike
      split
      · exact .pure rfl
      · exact .bind (chooseCase rest (grows.scopes c d held) (same.mono grows)) fun _ _ _ _ equal =>
          .pure (equal ▸ rfl)

theorem execCases :
    ∀ (cases_ : List Case) (start : Nat) {m : Pairing} {c d : Nat}, m.scopes c d →
      m.Sim (execCases call turns c start cases_) (execCases call turns d start cases_) SameFlow
  | [], _, m, c, d, _ => by
      simp only [Machine.execCases]
      exact .pure .normal
  | case_ :: rest, start + 1, m, c, d, held => by
      simp only [Machine.execCases]
      exact execCases rest start held
  | .case test body :: rest, 0, m, c, d, held => by
      simp only [Machine.execCases]
      refine .bind (execBlock body held) fun m' _ _ grows same => ?_
      cases same with
      | normal => exact execCases rest 0 (grows.scopes c d held)
      | returned same => exact .pure (.returned same)
      | left label => cases label <;> exact .pure (by constructor)
  | .otherwise body :: rest, 0, m, c, d, held => by
      simp only [Machine.execCases]
      refine .bind (execBlock body held) fun m' _ _ grows same => ?_
      cases same with
      | normal => exact execCases rest 0 (grows.scopes c d held)
      | returned same => exact .pure (.returned same)
      | left label => cases label <;> exact .pure (by constructor)

end

end Evaluation

section Calling

variable {call : Caller} {args args' : List Value}

theorem runPrimitive (calls : SameCalls call) (p : Primitive) (same : m.SameList args args') :
    m.Sim (runPrimitive call p args) (runPrimitive call p args') Same := by
  have first := same.actual 0
  cases p
  case funcall =>
    refine .bind (.coerceFunction (same.argument 1)) fun m' f g grows function => ?_
    exact calls m' function (.cons (first.mono grows) ((same.mono grows).drop 2))
  case apply =>
    refine .bind (.coerceFunction (same.argument 1)) fun m' f g grows function => ?_
    have rest := (same.mono grows).drop 2
    have last := rest.getLast?
    dsimp only
    generalize (args.drop 2).getLast? = list at last ⊢
    generalize (args'.drop 2).getLast? = list' at last ⊢
    cases last with
    | some list =>
        refine .bind (.listItems list) fun m'' items items' more spread => ?_
        exact calls m'' (function.mono more) (.cons (first.mono (grows.trans more))
          (List.rel_append (SameList.mono rest.dropLast more) spread))
    | none =>
        exact calls m' function (.cons (first.mono grows) (List.rel_append rest.dropLast .nil))
  case values => exact calls m first (same.drop 1)
  case valuesList =>
    exact .bind (.listItems (same.actual 1)) fun m' items items' grows all =>
      calls m' (first.mono grows) all
  all_goals
    simp only [Machine.runPrimitive]
    exact .runBuiltin _ same

theorem callPrimitive (calls : SameCalls call) (p : Primitive) (same : m.SameList args args') :
    m.Sim (callPrimitive call p args) (callPrimitive call p args') Same := by
  rw [Machine.callPrimitive, Machine.callPrimitive]
  simp only [List.Forall₂.length_eq same]
  split
  · refine .runPrimitive calls p ?_
    split
    · exact same
    · exact same.drop 1
  · exact .fail _

theorem runNative (calls : SameCalls call) (n : Script.Native) (same : m.SameList args args') :
    m.Sim (runNative call n args) (runNative call n args') Same := by
  cases n with
  | primitive p => exact .runPrimitive calls p same
  | routine r =>
      cases r
      case deliverValues =>
        exact .bind (.valuesOf (same.argument 1)) fun m' values values' grows all =>
          calls m' ((same.argument 0).mono grows) all
      case applyVector =>
        exact .bind (.vectorItems (same.argument 1)) fun m' items items' grows all =>
          calls m' ((same.argument 0).mono grows) all
      all_goals
        simp only [Machine.runNative]
        exact .runRoutine _ same

theorem counted {α : Type} {A : Pairing → α → α → Prop} {x y : Run α} (sim : m.Sim x y A) :
    m.Sim (counted x) (counted y) A := by
  intro i j alike
  have deeper : m.Alike { i with depth := i.depth + 1 } { j with depth := j.depth + 1 } :=
    ⟨alike.symbols, alike.heap, congrArg (· + 1) alike.depth, alike.depthLimit⟩
  have agree := sim _ _ deeper
  have back {m' : Pairing} {i j : Image} (alike : m'.Alike i j) :
      m'.Alike { i with depth := i.depth - 1 } { j with depth := j.depth - 1 } :=
    ⟨alike.symbols, alike.heap, congrArg (· - 1) alike.depth, alike.depthLimit⟩
  have room : i.depth < i.depthLimit ↔ j.depth < j.depthLimit := by
    rw [alike.depth, alike.depthLimit]
  simp only [Machine.counted, room]
  split
  · generalize x _ = r at agree ⊢
    generalize y _ = r' at agree ⊢
    cases agree with
    | ok grows alike held => exact .ok grows (back alike) held
    | error grows alike same => exact .error grows (back alike) same
  · exact .error (.refl m) alike (alike.depth ▸ .failed _)

/-- Calls of functions that stand for one another end alike. -/
theorem callWithin (steps : Nat) : SameCalls (callWithin steps) := by
  induction steps with
  | zero => exact fun m _ _ _ _ _ _ => .interrupt .outOfSteps
  | succ steps ih =>
      intro m function function' args args' same all
      have again := same
      cases same with
      | function held =>
          refine .withHeap fun h k alike => ?_
          have callable := (alike.function held).callable
          generalize (h.function _).callable = f at callable ⊢
          generalize (k.function _).callable = g at callable ⊢
          cases callable with
          | closure params body around =>
              refine .counted (.bind (.openActivation around params all) fun m' c d grows held => ?_)
              exact .bind (.execBlock ih body held) fun _ _ _ _ same => .resultOf same
          | native n => exact .runNative ih n all
          | primitive p => exact .callPrimitive ih p all
      | _ => exact .bind (.describe again) fun _ _ _ _ equal => equal ▸ .fail _

end Calling

end Sim

end Machine.Pairing

end LispScript
