import LispScript.Machine.Builtin
import LispScript.Machine.Operator
import LispScript.Machine.Property
import LispScript.Machine.Scope

/-!
Running scripts. Evaluation follows the syntax tree; what the tree does not bound, calls of
functions and turns of loops, is bounded by a number of steps.
-/

namespace LispScript.Machine

open Script

/-- How a statement ends when it does not fail. -/
inductive Flow where
  | normal
  | returned (value : Value)
  | left (label : Option String)
deriving Repr

/-- Calls of function values. -/
abbrev Caller := Value → List Value → Run Value

section Scopes

/-- The variables of an activation. Parameters without an argument are `undefined`. -/
def parameterVariables : List String → List Value → Variables → Variables
  | [], _, vars => vars
  | param :: params, args, vars =>
      parameterVariables params args.tail (vars.insert param (args.headD .undefined))

/-- The number of arguments that no call reaches; below it doubles count one by one. -/
def ampleArguments : Nat := Nat.pow 2 53

/-- Opens the scope of an activation, in which `arguments` is a new vector of all arguments. -/
def openActivation (parent : Address) (params : List String) (args : List Value) :
    Run Address := do
  if ampleArguments ≤ args.length then throw .outOfSteps
  let vector ← Run.onHeap (·.allocVector args.toArray)
  let vars := (parameterVariables params args {}).insert "arguments" vector
  Run.onHeap (·.allocScope ⟨vars, some parent, true⟩)

def openHandler (parent : Address) (param : String) (thrown : Value) : Run Address :=
  Run.onHeap (·.allocScope ⟨({} : Variables).insert param thrown, some parent, false⟩)

/-- The value of a call whose body ended. -/
def resultOf : Flow → Run Value
  | .returned value => return value
  | .normal => return .undefined
  | .left _ => Run.fail (.host "break outside of a loop")

end Scopes

section Control

/-- Runs a handler on what a block throws. -/
def handling (block : Run Flow) (handler : Value → Run Flow) : Run Flow := fun image =>
  match block image with
  | .error (.thrown value) image => handler value image
  | result => result

/-- Runs a cleanup however a block ends; one that does not end normally replaces the block's
outcome. -/
def ensuring (block cleanup : Run Flow) : Run Flow := fun image =>
  match block image with
  | .error .outOfSteps image => .error .outOfSteps image
  | .ok flow image =>
      match cleanup image with
      | .ok .normal image => .ok flow image
      | result => result
  | .error interrupt image =>
      match cleanup image with
      | .ok .normal image => .error interrupt image
      | result => result

/-- Whether an exit with the given label ends a loop labelled `label`. -/
def endsLoop (label target : Option String) : Bool := target.isNone || target == label

/-- Repeats a body while a test holds. -/
def repeatWhile (label : Option String) (test : Run Value) (body : Run Flow) : Nat → Run Flow
  | 0 => throw .outOfSteps
  | turns + 1 => do
      if (← test).truthy then
        match ← body with
        | .normal => repeatWhile label test body turns
        | .left target => return if endsLoop label target then .normal else .left target
        | .returned value => return .returned value
      else return .normal

end Control

section Calls

variable (call : Caller)

/-- A built-in function on its arguments, the acceptor first where it takes one. -/
def runPrimitive (p : Primitive) (args : List Value) : Run Value := do
  match p with
  | .funcall => do
      let function ← coerceFunction (argument args 1)
      call function (actual args 0 :: args.drop 2)
  | .apply => do
      let function ← coerceFunction (argument args 1)
      let rest := args.drop 2
      let spread ← match rest.getLast? with
        | some list => listItems list
        | none => pure []
      call function (actual args 0 :: (rest.dropLast ++ spread))
  | .values => call (actual args 0) (args.drop 1)
  | .valuesList => do call (actual args 0) (← listItems (actual args 1))
  | p => runBuiltin p args

/-- A built-in function called as compiled code is: an acceptor first, and the number of arguments
checked. -/
def callPrimitive (p : Primitive) (args : List Value) : Run Value :=
  let got := args.length - 1
  if p.arity.accepts got then
    runPrimitive call p (if p.takesAcceptor then args else args.drop 1)
  else Run.fail (.arity p.arity.describe got)

def runNative (n : Native) (args : List Value) : Run Value := do
  match n with
  | .routine .deliverValues => do call (argument args 0) (← valuesOf (argument args 1))
  | .routine .applyVector => do
      let items ← vectorItems (argument args 1)
      call (argument args 0) items.toList
  | .routine r => runRoutine r args
  | .primitive p => runPrimitive call p args

end Calls

section Evaluation

-- How function values are called, and how many turns a loop may take.
variable (call : Caller) (turns : Nat)

mutual

/-- The value of an expression. A function literal called where it stands runs in a scope of its
own without counting as a call. -/
def evalExpr (scope : Address) : Expr → Run Value
  | .number n => return .number n
  | .string text => Run.newString text
  | .bool b => return .bool b
  | .undefined => return .undefined
  | .ident name => do
      match (← Run.heap).lookupVariable? scope name with
      | some value => return value
      | none => Run.fail (.host (name ++ " is not defined"))
  | .support member =>
      match Image.support? member with
      | some value => return value
      | none => Run.fail (.host ("internals." ++ member.name ++ " is not defined"))
  | .member object property => do getProperty (← evalExpr scope object) property
  | .index object position => do
      let object ← evalExpr scope object
      getElement object (← evalExpr scope position)
  | .call (.function params body) args => do
      let values ← evalList scope args
      let inner ← openActivation scope params values
      resultOf (← execBlock inner body)
  | .call callee args => do
      let function ← evalExpr scope callee
      call function (← evalList scope args)
  | .function params body => Run.onHeap (·.allocFunction (.closure params body scope))
  | .array items => do newVector (← evalList scope items)
  | .binary .and left right => do
      let value ← evalExpr scope left
      if value.truthy then evalExpr scope right else return value
  | .binary .or left right => do
      let value ← evalExpr scope left
      if value.truthy then return value else evalExpr scope right
  | .binary op left right => do
      let left ← evalExpr scope left
      applyBinary op left (← evalExpr scope right)
  | .unary op operand => do applyUnary op (← evalExpr scope operand)
  | .cond test yes no => do
      if (← evalExpr scope test).truthy then evalExpr scope yes else evalExpr scope no
  | .assign target value => do
      let value ← evalExpr scope value
      assignTo scope value target
      return value
  | .comma items => do return (← evalList scope items).getLast?.getD .undefined

/-- The values of expressions, from left to right. -/
def evalList (scope : Address) : List Expr → Run (List Value)
  | [] => return []
  | item :: rest => do
      let value ← evalExpr scope item
      return value :: (← evalList scope rest)

/-- Stores a value at the place that an expression denotes. -/
def assignTo (scope : Address) (value : Value) : Expr → Run Unit
  | .ident name => do
      match (← Run.heap).variableScope? scope name with
      | some owner => Run.modifyHeap (·.bindVariable owner name value)
      | none => Run.fail (.host ("assignment to undeclared variable " ++ name))
  | .member object property => do setProperty (← evalExpr scope object) property value
  | .index object position => do
      let object ← evalExpr scope object
      setElement object (← evalExpr scope position) value
  | _ => Run.fail (.host "invalid assignment target")

def exec (scope : Address) : Stmt → Run Flow
  | .declare name => do
      Run.modifyHeap (·.declareVariable scope name)
      return .normal
  | .define name value => do
      let value ← evalExpr scope value
      Run.modifyHeap (·.defineVariable scope name value)
      return .normal
  | .effect value => do
      let _ ← evalExpr scope value
      return .normal
  | .ret value => do return .returned (← evalExpr scope value)
  | .branch test yes no => do
      if (← evalExpr scope test).truthy then execBlock scope yes else execBlock scope no
  | .loop label test body => repeatWhile label (evalExpr scope test) (execBlock scope body) turns
  | .iterate start test update body => do
      let _ ← evalExpr scope start
      repeatWhile none (evalExpr scope test) (do
        match ← execBlock scope body with
        | .normal => do
            let _ ← evalExpr scope update
            return .normal
        | flow => return flow) turns
  | .select subject cases => do
      let value ← evalExpr scope subject
      let chosen ← chooseCase scope value cases
      match chosen.orElse fun _ => cases.findIdx? (·.isDefault) with
      | some start => execCases scope start cases
      | none => return .normal
  | .leave label => return .left label
  | .raise value => do throw (.thrown (← evalExpr scope value))
  | .guarded block handler cleanup =>
      let handled := match handler with
        | .none => execBlock scope block
        | .catching param body =>
            handling (execBlock scope block) fun thrown => do
              let inner ← openHandler scope param thrown
              execBlock inner body
      match cleanup with
      | .none => handled
      | .always body => ensuring handled (execBlock scope body)

/-- Statements in order, up to the first that does not end normally. -/
def execBlock (scope : Address) : List Stmt → Run Flow
  | [] => return .normal
  | stmt :: rest => do
      match ← exec scope stmt with
      | .normal => execBlock scope rest
      | flow => return flow

/-- The position of the first case whose test has the given value. -/
def chooseCase (scope : Address) (value : Value) : List Case → Run (Option Nat)
  | [] => return none
  | .otherwise _ :: rest => do return (← chooseCase scope value rest).map (· + 1)
  | .case test _ :: rest => do
      if value.strictEq (← evalExpr scope test) then return some 0
      else return (← chooseCase scope value rest).map (· + 1)

/-- The bodies of the cases from the given position on, each falling through to the next. -/
def execCases (scope : Address) (start : Nat) : List Case → Run Flow
  | [] => return .normal
  | case :: rest => do
      match start with
      | start + 1 => execCases scope start rest
      | 0 =>
          let flow ← match case with
            | .case _ body => execBlock scope body
            | .otherwise body => execBlock scope body
          match flow with
          | .normal => execCases scope 0 rest
          | .left none => return .normal
          | flow => return flow

end

end Evaluation

section Calling

/-- Runs the body of a compiled function one call deeper, unless the limit is reached. -/
def counted (run : Run α) : Run α := fun image =>
  if image.depth < image.depthLimit then
    match run { image with depth := image.depth + 1 } with
    | .ok a image => .ok a { image with depth := image.depth - 1 }
    | .error interrupt image => .error interrupt { image with depth := image.depth - 1 }
  else .error (.failed (.stackExhausted image.depth)) image

/-- Calls a function value with at most the given number of nested calls. -/
def callWithin : Nat → Caller
  | 0, _, _ => throw .outOfSteps
  | steps + 1, function, args => do
      match function with
      | .function address =>
          match ((← Run.heap).function address).callable with
          | .closure params body scope =>
              counted do
                let inner ← openActivation scope params args
                resultOf (← execBlock (callWithin steps) steps inner body)
          | .native n => runNative (callWithin steps) n args
          | .primitive p => callPrimitive (callWithin steps) p args
      | other => do Run.fail (.notAFunction (← Run.describe other))

/-- The value of the last expression statement, unless a statement returns. -/
def runStatements (steps : Nat) (last : Value) : List Stmt → Run Value
  | [] => return last
  | .effect value :: rest => do
      let value ← evalExpr (callWithin steps) steps Image.globalScope value
      runStatements steps value rest
  | stmt :: rest => do
      match ← exec (callWithin steps) steps Image.globalScope stmt with
      | .normal => runStatements steps last rest
      | .returned value => return value
      | .left _ => Run.fail (.host "break outside of a loop")

/-- The value of a program that may nest calls, and repeat loops, up to the given number. -/
def runWithin (steps : Nat) (program : Program) : Run Value :=
  runStatements steps .undefined program.body

/-- More steps than any run takes. -/
def ampleSteps : Nat := Nat.pow 2 60

def call (function : Value) (args : List Value) : Run Value := callWithin ampleSteps function args

def run (program : Program) : Run Value := runWithin ampleSteps program

end Calling

end LispScript.Machine
