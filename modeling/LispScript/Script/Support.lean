import LispScript.Primitive

/-!
The support object: what a compiled script finds under `internals`.
-/

namespace LispScript.Script

/-- The support routines that are not built-in functions of the language. -/
inductive Routine where
  | packValues
  | primaryValue
  | deliverValues
  | appendValues
  | applyVector
  | coerceFunction
  | character
  | checkArgs
  | checkArgsAtLeast
  | checkArgsAtMost
  | checkKeywordPairs
  | unknownKeyword
  | transfer
  | internSymbol
  | uninternedSymbol
deriving DecidableEq, Repr

namespace Routine

def all : List Routine :=
  [.packValues, .primaryValue, .deliverValues, .appendValues, .applyVector, .coerceFunction,
    .character, .checkArgs, .checkArgsAtLeast, .checkArgsAtMost, .checkKeywordPairs,
    .unknownKeyword, .transfer, .internSymbol, .uninternedSymbol]

def name : Routine → String
  | packValues => "mv"
  | primaryValue => "pv"
  | deliverValues => "applyValues"
  | appendValues => "mvAppend"
  | applyVector => "apply"
  | coerceFunction => "coerceFunction"
  | character => "character"
  | checkArgs => "checkArgs"
  | checkArgsAtLeast => "checkArgsAtLeast"
  | checkArgsAtMost => "checkArgsAtMost"
  | checkKeywordPairs => "checkKeywordPairs"
  | unknownKeyword => "unknownKeyword"
  | transfer => "transfer"
  | internSymbol => "internSymbol"
  | uninternedSymbol => "uninternedSymbol"

end Routine

/-- A routine that scripts call with their own conventions: the arguments as they stand. -/
inductive Native where
  | routine (r : Routine)
  | primitive (p : Primitive)
deriving DecidableEq, Repr

namespace Native

def all : List Native := Routine.all.map routine ++ Primitive.all.map primitive

def name : Native → String
  | routine r => r.name
  | primitive p => p.hostName

end Native

/-- A member of the support object. A name that it does not have can still be written. -/
inductive Support where
  | nil
  | t
  | native (n : Native)
  | absent (name : String)
deriving DecidableEq, Repr

namespace Support

def name : Support → String
  | nil => "NIL"
  | t => "T"
  | native n => n.name
  | absent name => name

def ofName (name : String) : Support :=
  if name = "NIL" then nil
  else if name = "T" then t
  else match Native.all.find? (·.name == name) with
    | some n => native n
    | none => absent name

theorem name_ofName (text : String) : (ofName text).name = text := by
  unfold ofName
  split
  · simp_all [name]
  · split
    · simp_all [name]
    · split
      · rename_i found
        simpa [name] using List.find?_some found
      · rfl

end Support

end LispScript.Script
