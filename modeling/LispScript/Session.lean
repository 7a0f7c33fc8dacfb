import LispScript.Compiler.Form
import LispScript.Prelude
import LispScript.Reader
import LispScript.Script.Render

/-!
Sessions: reading, compiling and running, one top-level form at a time. Each form is compiled and
run before the next one is read, so that later forms see the macros and packages that earlier ones
define. A step that fails keeps all that it did up to the failure.
-/

namespace LispScript

inductive SessionError where
  | reader (cause : ReadError)
  | compiler (cause : CompileError)
  | runtime (cause : RuntimeError)
deriving DecidableEq, Repr

def SessionError.message : SessionError → String
  | reader cause => cause.message
  | compiler cause => cause.message
  | runtime cause => cause.message

structure SessionOptions where
  prelude : Bool := true
  /-- The features that are there for the guards of the reader; case does not matter. -/
  features : List String := ["HOSTLISP", "COMMON-LISP"]
  /-- How deep calls of compiled functions may nest. -/
  maxDepth : Nat := 10000

structure Session where
  features : List String
  state : CompileState
deriving Inhabited

/-- Steps of a session. -/
abbrev SessionStep := EStateM SessionError Session

namespace Session

def image (session : Session) : Image := session.state.image

def withImage (session : Session) (image : Image) : Session :=
  { session with state := { session.state with image } }

def withSymbols (session : Session) (symbols : SymbolTable) : Session :=
  session.withImage { session.image with symbols }

def print (session : Session) (value : Value) : String := session.image.print value

def princ (session : Session) (value : Value) : String := session.image.princ value

/-- A session with nothing in it but the standard symbols and functions. -/
def bare (features : List String) (maxDepth : Nat) : Session :=
  { features := features.map String.toUpper, state := { image := Image.initial maxDepth } }

section Steps

/-- A reading of a text; with its result, the rest of the text. -/
def reading (step : List String → Read α) (text : List Char) : SessionStep (α × List Char) :=
  fun s =>
    match step s.features ⟨text, s.state.image⟩ with
    | .ok a ⟨rest, image⟩ => .ok (a, rest) { s with state := { s.state with image } }
    | .error e ⟨_, image⟩ => .error (.reader e) { s with state := { s.state with image } }

def compiling (step : Compile α) : SessionStep α := fun s =>
  match step s.state with
  | .ok a state => .ok a { s with state }
  | .error e state => .error (.compiler e) { s with state }

def running (step : Run α) : SessionStep α := fun s =>
  match step s.state.image with
  | .ok a image => .ok a { s with state := { s.state with image } }
  | .error interrupt image =>
      .error (.runtime (interrupt.asError image)) { s with state := { s.state with image } }

end Steps

section Reading

/-- The first form of a text, unless there is none, and the text that follows it. -/
def readNext (text : List Char) : SessionStep (Option (Value × List Char)) := do
  let (form?, rest) ← reading Reader.read text
  return form?.map (·, rest)

/-- The first form of a text. -/
def read (text : String) : SessionStep (Option Value) := do
  return (← reading Reader.read text.toList).1

/-- All forms of a text, read before any is evaluated. -/
def readAll (text : String) : SessionStep (List Value) := do
  return (← reading Reader.readAll text.toList).1

/-- Takes in at most `count` forms of a text, each read after the step for the one before it. -/
def foldForms (step : α → Value → SessionStep α) : Nat → α → List Char → SessionStep α
  | 0, a, _ => return a
  | count + 1, a, text => do
      match ← readNext text with
      | some (form, rest) => do
          let a ← step a form
          foldForms step count a rest
      | none => return a

/-- Takes in all forms of a text. Each takes a character at least. -/
def foldText (step : α → Value → SessionStep α) (a : α) (text : String) : SessionStep α :=
  foldForms step (text.length + 1) a text.toList

end Reading

section Evaluation

def compile (form : Value) : SessionStep Script.Program := compiling (Compiler.compileUnit form)

/-- The script of a form, as text. -/
def compileToText (form : Value) : SessionStep String := do return (← compile form).render

/-- All values of a form. -/
def eval (form : Value) : SessionStep (List Value) := do
  let result ← running (Machine.run (← compile form))
  return (← get).image.valuesOf result

/-- The scripts of all forms of a text, none of which is run. -/
def compileText (text : String) : SessionStep String :=
  foldText (fun out form => do return out ++ (← compileToText form)) "" text

/-- Evaluates all forms of a text; the values are those of the last one, or `NIL` if there is
none. -/
def evalText (text : String) : SessionStep (List Value) :=
  foldText (fun _ form => eval form) [.nil] text

/-- One step of macro expansion at top level, or nothing for a form that is no call of a macro. -/
def expandOnce? (form : Value) : SessionStep (Option Value) :=
  compiling (Compiler.expandOnce? .toplevel form)

/-- Macro expansion at top level, and whether there was anything to expand. -/
def expand (form : Value) : SessionStep (Value × Bool) :=
  compiling (Compiler.expand .toplevel form)

end Evaluation

/-- A new session. It fails when the prelude does, as it can where calls may hardly nest. -/
def create (options : SessionOptions) : Except SessionError Session :=
  let session := bare options.features options.maxDepth
  if options.prelude then
    match evalText preludeText session with
    | .ok _ session => .ok session
    | .error e _ => .error e
  else .ok session

end Session

end LispScript
