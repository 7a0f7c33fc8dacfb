import LispScript.Arguments
import LispScript.Repl

/-!
The command: what it prints for a given file or input.
-/

namespace LispScript

/-- What a finished command leaves: two texts and an exit code. -/
structure Outcome where
  stdout : String := ""
  stderr : String := ""
  code : Nat := 0
deriving DecidableEq, Repr

def NoRun.outcome : NoRun → Outcome
  | help => { stdout := helpText }
  | version => { stdout := versionText }
  | misuse cause => { stderr := cause.message, code := 2 }

namespace Command

/-- The session that the command runs in, or the outcome of a start that failed. -/
def openSession (command : Command) : Except Outcome Session :=
  match Session.create { prelude := command.prelude, maxDepth := command.maxDepth } with
  | .ok session => .ok session
  | .error e => .error { stderr := "Bootstrap error: " ++ e.message ++ "\n", code := 1 }

/-- Runs the text of a file, or prints its scripts. -/
def runSource (command : Command) (session : Session) (source : String) : Outcome :=
  let step : SessionStep String := do
    if command.emit then Session.compileText source
    else
      let _ ← Session.evalText source
      return ""
  match step session with
  | .ok stdout _ => { stdout }
  | .error e _ => { stderr := e.message ++ "\n", code := 1 }

/-- Runs the interactive loop over the lines of an input. -/
def runLines (command : Command) (session : Session) (lines : List String) : Outcome :=
  { stdout := Repl.banner ++ (Repl.start session command.emit).takeLines lines }

/-- The failure of a file to be read. -/
def unreadable (path reason : String) : Outcome :=
  { stderr := "cannot read " ++ path ++ ": " ++ reason ++ "\n", code := 1 }

def missingFile : String := "No such file or directory (os error 2)"

/-- The outcome of the command: on the text of its file, where it has a file and that has a text, or
else on the lines of its input. -/
def run (command : Command) (source : Option String) (lines : List String) : Outcome :=
  match command.openSession, command.file, source with
  | .error outcome, _, _ => outcome
  | .ok session, none, _ => command.runLines session lines
  | .ok session, some _, some source => command.runSource session source
  | .ok _, some path, none => unreadable path missingFile

end Command

section Lines

/-- A line without what ends it: a newline, or a carriage return and a newline. -/
def chompLine (line : List Char) : List Char :=
  match line.reverse with
  | '\n' :: '\r' :: rest => rest.reverse
  | '\n' :: rest => rest.reverse
  | _ => line

/-- The lines of a text, with what ends them; `current` stands in reverse. -/
def rawLines (current : List Char) : List Char → List (List Char)
  | [] => if current.isEmpty then [] else [current.reverse]
  | c :: rest =>
      if c = '\n' then (c :: current).reverse :: rawLines [] rest else rawLines (c :: current) rest

def splitLines (text : String) : List String :=
  (rawLines [] text.toList).map fun line => String.ofList (chompLine line)

end Lines

end LispScript
