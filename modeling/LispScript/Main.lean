import LispScript.CommandLine

/-!
The command as a program.
-/

namespace LispScript

/-- Reads lines and prints the answers until the input or the session ends. -/
partial def interact (input output : IO.FS.Stream) (repl : Repl) : IO Unit := do
  let line ← input.getLine
  if line.isEmpty then return
  let (printed, next) := repl.takeLine (String.ofList (chompLine line.toList))
  output.putStr printed
  output.flush
  match next with
  | some repl => interact input output repl
  | none => return

def finish (outcome : Outcome) : IO UInt32 := do
  IO.print outcome.stdout
  IO.eprint outcome.stderr
  return outcome.code.toUInt32

end LispScript

open LispScript in
def main (args : List String) : IO UInt32 := do
  match Command.parse args with
  | .error noRun => finish noRun.outcome
  | .ok command =>
      match command.openSession with
      | .error outcome => finish outcome
      | .ok session =>
          match command.file with
          | some path =>
              match ← (IO.FS.readFile path).toBaseIO with
              | .ok source => finish (command.runSource session source)
              | .error (.noFileOrDirectory ..) => finish (Command.unreadable path Command.missingFile)
              | .error e => finish (Command.unreadable path (toString e))
          | none => do
              let output ← IO.getStdout
              output.putStr Repl.banner
              interact (← IO.getStdin) output (Repl.start session command.emit)
              return 0
