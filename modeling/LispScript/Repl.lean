import LispScript.Session

/-!
The interactive loop, line by line. Lines are collected until their brackets and strings are closed,
and then the collected text is evaluated.
-/

namespace LispScript

section Balance

/-- How far a text is from being complete, read from its start. -/
structure Balance where
  depth : Int := 0
  inString : Bool := false
  inComment : Bool := false
  /-- Whether the next character is taken as it is. -/
  escaped : Bool := false
deriving DecidableEq, Repr

def Balance.step (balance : Balance) (c : Char) : Balance :=
  if balance.inComment then { balance with inComment := c != '\n' }
  else if balance.escaped then { balance with escaped := false }
  else if c = '\\' then { balance with escaped := true }
  else if c = '"' then { balance with inString := !balance.inString }
  else if balance.inString then balance
  else if c = ';' then { balance with inComment := true }
  else if c = '(' then { balance with depth := balance.depth + 1 }
  else if c = ')' then { balance with depth := balance.depth - 1 }
  else balance

/-- Whether no bracket or string of a text is open at its end. -/
def isBalanced (text : List Char) : Bool :=
  let balance := text.foldl Balance.step {}
  balance.depth ≤ 0 && !balance.inString

end Balance

/-- A session with a user at the other end. -/
structure Repl where
  session : Session
  /-- Whether scripts are printed and not run. -/
  emit : Bool
  /-- The variables that hold the values of the last inputs, the latest first. -/
  history : List SymbolId
  /-- The lines that are not evaluated yet. -/
  pending : String := ""
deriving Inhabited

namespace Repl

def banner : String :=
  "HostLisp 0.3.0 - Common Lisp subset on a JavaScript host\n" ++
  "Type (quit) or Ctrl-D to exit\n\n"

section History

def historyNames : List String := ["*", "**", "***"]

/-- Makes a variable of `COMMON-LISP` known, with the value `NIL`. -/
def addVariable (name : String) (symbols : SymbolTable) : SymbolId × SymbolTable :=
  let (id, symbols) := symbols.internStandard name
  (id, symbols.setValue id (some .nil))

def addVariables : List String → SymbolTable → List SymbolId × SymbolTable
  | [], symbols => ([], symbols)
  | name :: rest, symbols =>
      let (id, symbols) := addVariable name symbols
      let (ids, symbols) := addVariables rest symbols
      (id :: ids, symbols)

/-- Gives the first variable a new value and hands each old one on to the next variable. -/
def shiftValues (value : Option Value) : List SymbolId → SymbolTable → SymbolTable
  | [], symbols => symbols
  | id :: rest, symbols =>
      shiftValues (symbols.symbol id).value rest (symbols.setValue id value)

end History

/-- The loop before the first line. -/
def start (session : Session) (emit : Bool) : Repl :=
  let (history, symbols) := addVariables historyNames session.image.symbols
  { session := session.withSymbols symbols, emit, history }

/-- Makes a value the latest one. -/
def remember (repl : Repl) (value : Value) : Repl :=
  let symbols := shiftValues (some value) repl.history repl.session.image.symbols
  { repl with session := repl.session.withSymbols symbols }

def unlines (texts : List String) : String := String.join (texts.map (· ++ "\n"))

/-- What is printed for a complete text. -/
def submit (repl : Repl) (text : String) : String × Repl :=
  let step : SessionStep (String × Option Value) := do
    if repl.emit then return (← Session.compileText text, none)
    else
      let values ← Session.evalText text
      return (unlines (values.map (← get).print), some (values.headD .nil))
  match step repl.session with
  | .ok (printed, none) session => (printed, { repl with session })
  | .ok (printed, some value) session => (printed, { repl with session }.remember value)
  | .error e session => (unlines ["Error: " ++ e.message], { repl with session })

/-- Whether a line ends the loop when nothing is pending. -/
def isFarewell (line : String) : Bool :=
  let text := Text.trim line
  text == "(quit)" || text == "(exit)"

/-- The collected text with one more line. Blank lines are left out. -/
def collect (pending line : String) : String :=
  if (Text.trim line).isEmpty then pending else pending ++ line ++ "\n"

/-- Takes in a line: what is printed for it, and the loop that waits for the next one, unless this
was the last. -/
def takeLine (repl : Repl) (line : String) : String × Option Repl :=
  if repl.pending.isEmpty && isFarewell line then ("Goodbye!\n", none)
  else
    let text := collect repl.pending line
    if !isBalanced text.toList then ("", some { repl with pending := text })
    else
      let repl := { repl with pending := "" }
      if (Text.trim text).isEmpty then ("", some repl)
      else
        let (printed, repl) := repl.submit text
        (printed, some repl)

/-- All that is printed for the lines of an input. -/
def takeLines (repl : Repl) : List String → String
  | [] => ""
  | line :: rest =>
      match repl.takeLine line with
      | (printed, some repl) => printed ++ repl.takeLines rest
      | (printed, none) => printed

end Repl

end LispScript
