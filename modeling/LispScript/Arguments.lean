import LispScript.Text.Similarity

/-!
The arguments of the command: the command that they add up to, or what is said when they add up to
none.
-/

namespace LispScript

/-- What the command is to do. -/
structure Command where
  /-- Whether scripts are printed and not run. -/
  emit : Bool := false
  prelude : Bool := true
  maxDepth : Nat := 10000
  /-- The file to run; without one the interactive loop starts. -/
  file : Option String := none
deriving DecidableEq, Repr, Inhabited

/-- The options of the command. -/
inductive Flag where
  | emit
  | noPrelude
  | maxDepth
  | help
  | version
deriving DecidableEq, Repr

namespace Flag

def all : List Flag := [emit, noPrelude, maxDepth, help, version]

def name : Flag → String
  | emit => "emit"
  | noPrelude => "no-prelude"
  | maxDepth => "max-depth"
  | help => "help"
  | version => "version"

def ofName? (name : String) : Option Flag := all.find? (·.name == name)

def ofLetter? : Char → Option Flag
  | 'h' => some help
  | 'V' => some version
  | _ => none

/-- The option as it is written, with a name for its value. -/
def synopsis (flag : Flag) : String :=
  if flag = maxDepth then "--max-depth <MAX_DEPTH>" else "--" ++ flag.name

end Flag

section Depth

/-- Why a text is no depth. -/
inductive DepthError where
  | empty
  | invalidDigit
  | tooLarge
deriving DecidableEq, Repr

def DepthError.message : DepthError → String
  | empty => "cannot parse integer from empty string"
  | invalidDigit => "invalid digit found in string"
  | tooLarge => "number too large to fit in target type"

/-- A number with one more digit, below two to the power of 64. -/
def addDigit (n : Nat) (digit : Char) : Except DepthError Nat :=
  if !digit.isDigit then .error .invalidDigit
  else
    let n := 10 * n + (digit.toNat - '0'.toNat)
    if n < Nat.pow 2 64 then .ok n else .error .tooLarge

/-- The number that a depth is written as: decimal digits, perhaps after a plus sign. -/
def readDepth (text : String) : Except DepthError Nat :=
  match text.toList with
  | [] => .error .empty
  | ['+'] => .error .invalidDigit
  | '+' :: digits => digits.foldlM addDigit 0
  | digits => digits.foldlM addDigit 0

end Depth

/-- Why arguments add up to no command. Where that helps, an error holds the options in use. -/
inductive UsageError where
  | unknownFlag (name : String) (used : List Flag)
  | unknownLetter (letter : Char)
  | unexpectedFile (path : String)
  | unexpectedValue (value : String) (flag : Flag) (used : List Flag)
  | missingValue (synopsis : String)
  | invalidDepth (text : String) (cause : DepthError)
  | repeated (flag : Flag)
deriving DecidableEq, Repr

section Messages

def fileSynopsis : String := "[FILE]"

/-- How to call the command, with the options that are in use or else a word for all of them. -/
def usage (used : List Flag) : String :=
  let options := if used.isEmpty then ["[OPTIONS]"] else used.map (·.synopsis)
  " ".intercalate ("Usage: hostlisp" :: options ++ [fileSynopsis])

def helpText : String :=
  "Common Lisp subset compiled to JavaScript source, with an in-process script host\n\n" ++
  usage [] ++ "\n\n" ++
  "Arguments:\n" ++
  "  [FILE]  File to run; starts the REPL when absent\n\n" ++
  "Options:\n" ++
  "      --emit                   Print compiled JavaScript instead of evaluating\n" ++
  "      --no-prelude             Start without the prelude macros\n" ++
  "      --max-depth <MAX_DEPTH>  Host call depth limit [default: 10000]\n" ++
  "  -h, --help                   Print help\n" ++
  "  -V, --version                Print version\n"

def versionText : String := "hostlisp 0.3.0\n"

namespace UsageError

def headline : UsageError → String
  | unknownFlag name _ => "unexpected argument '--" ++ name ++ "' found"
  | unknownLetter letter => "unexpected argument '-" ++ letter.toString ++ "' found"
  | unexpectedFile path => "unexpected argument '" ++ path ++ "' found"
  | unexpectedValue value flag _ =>
      "unexpected value '" ++ value ++ "' for '" ++ flag.synopsis ++
        "' found; no more were expected"
  | missingValue synopsis => "a value is required for '" ++ synopsis ++ "' but none was supplied"
  | invalidDepth text cause =>
      "invalid value '" ++ text ++ "' for '" ++ Flag.maxDepth.synopsis ++ "': " ++ cause.message
  | repeated flag => "the argument '" ++ flag.synopsis ++ "' cannot be used multiple times"

/-- The option that may have been meant. -/
def similar? : UsageError → Option Flag
  | unknownFlag name _ => Text.mostSimilar? Flag.name name Flag.all
  | _ => none

def asValueTip (argument : String) : String :=
  "  tip: to pass '" ++ argument ++ "' as a value, use '-- " ++ argument ++ "'"

def tip? (e : UsageError) : Option String :=
  match e.similar?, e with
  | some flag, _ => some ("  tip: a similar argument exists: '--" ++ flag.name ++ "'")
  | none, unknownFlag name _ => some (asValueTip ("--" ++ name))
  | none, unknownLetter letter => some (asValueTip ("-" ++ letter.toString))
  | none, _ => none

def usage? (e : UsageError) : Option String :=
  match e with
  | unknownFlag _ used => some (usage (used ++ e.similar?.toList).eraseDups)
  | unexpectedValue _ _ used => some (usage used)
  | unknownLetter _ | unexpectedFile _ | repeated _ => some (usage [])
  | missingValue _ | invalidDepth _ _ => none

def message (e : UsageError) : String :=
  "\n\n".intercalate (["error: " ++ e.headline] ++ e.tip?.toList ++ e.usage?.toList ++
    ["For more information, try '--help'.\n"])

end UsageError

end Messages

/-- Why the arguments lead to no run. -/
inductive NoRun where
  | help
  | version
  | misuse (cause : UsageError)
deriving DecidableEq, Repr

/-- An argument by its form. -/
inductive Argument where
  /-- After it no argument is an option. -/
  | divider
  | long (name : String) (value : Option String)
  | short (letter : Char)
  | plain
deriving DecidableEq, Repr

def Argument.ofText (text : String) : Argument :=
  match text.toList with
  | ['-', '-'] => divider
  | '-' :: '-' :: rest =>
      match rest.span (· != '=') with
      | (name, _ :: value) => long (String.ofList name) (some (String.ofList value))
      | (name, []) => long (String.ofList name) none
  | '-' :: letter :: _ => short letter
  | _ => plain

/-- What has been read but not yet looked at. -/
inductive Pending where
  | nothing
  /-- The option for the depth, with its value if that has been read. -/
  | depth (text : Option String)
  | file (path : String)
deriving DecidableEq, Repr

/-- The arguments read so far. -/
structure Arguments where
  command : Command := {}
  /-- The options that the command has taken in. -/
  flags : List Flag := []
  hasFile : Bool := false
  pending : Pending := .nothing
deriving DecidableEq, Repr

namespace Arguments

def refuse (cause : UsageError) : Except NoRun α := .error (.misuse cause)

/-- The options in use, counting a pending one. -/
def used (args : Arguments) : List Flag :=
  match args.pending with
  | .depth (some _) => (args.flags ++ [Flag.maxDepth]).eraseDups
  | _ => args.flags

/-- An option is used once at most. -/
def addFlag (args : Arguments) (flag : Flag) : Except NoRun Arguments :=
  if args.flags.contains flag then refuse (.repeated flag)
  else .ok { args with flags := args.flags ++ [flag] }

def setDepth (args : Arguments) (text : String) : Except NoRun Arguments := do
  let args ← args.addFlag .maxDepth
  match readDepth text with
  | .ok maxDepth => return { args with command.maxDepth := maxDepth }
  | .error cause => refuse (.invalidDepth text cause)

/-- Takes in what is pending. -/
def settle (args : Arguments) : Except NoRun Arguments :=
  let rest := { args with pending := .nothing }
  match args.pending with
  | .nothing => .ok rest
  | .depth none => refuse (.missingValue Flag.maxDepth.synopsis)
  | .depth (some text) => rest.setDepth text
  | .file path =>
      if path.isEmpty then refuse (.missingValue fileSynopsis)
      else .ok { rest with command.file := some path }

/-- Takes in an option that stands without a value. -/
def setFlag (args : Arguments) (flag : Flag) : Except NoRun Arguments := do
  let args ← args.settle
  match flag with
  | .help => .error .help
  | .version => .error .version
  | .maxDepth => return { args with pending := .depth none }
  | .emit => return { ← args.addFlag flag with command.emit := true }
  | .noPrelude => return { ← args.addFlag flag with command.prelude := false }

def addFile (args : Arguments) (path : String) : Except NoRun Arguments := do
  if args.hasFile then refuse (.unexpectedFile path)
  else return { ← args.settle with hasFile := true, pending := .file path }

def addLong (args : Arguments) (name : String) (value : Option String) : Except NoRun Arguments :=
  match Flag.ofName? name, value with
  | none, _ => refuse (.unknownFlag name args.used)
  | some flag, none => args.setFlag flag
  | some .maxDepth, some value => do (← args.settle).setDepth value
  | some flag, some value => refuse (.unexpectedValue value flag args.used)

/-- Reads the arguments that follow. The value of an option is the next argument, unless that has
the form of an option, or follows an equals sign. -/
def addAll (args : Arguments) : List String → Except NoRun Arguments
  | [] => args.settle
  | text :: rest =>
      match Argument.ofText text with
      | .divider => do (← rest.foldlM addFile args).settle
      | .long name value => do addAll (← args.addLong name value) rest
      | .short letter =>
          match Flag.ofLetter? letter with
          | some flag => do addAll (← args.setFlag flag) rest
          | none => refuse (.unknownLetter letter)
      | .plain =>
          if args.pending = .depth none then addAll { args with pending := .depth (some text) } rest
          else do addAll (← args.addFile text) rest

end Arguments

/-- The command that arguments add up to. -/
def Command.parse (args : List String) : Except NoRun Command := do
  return (← Arguments.addAll {} args).command

end LispScript
