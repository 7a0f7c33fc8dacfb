import LispScript.Primitive
import LispScript.SpecialForm
import LispScript.SymbolTable

/-!
The symbols that every table starts with. They are made in a fixed order, so the ones that the
compiler knows have fixed ids.
-/

namespace LispScript

namespace SymbolId

def quote : SymbolId := ⟨2⟩
def function : SymbolId := ⟨3⟩
def lambda : SymbolId := ⟨4⟩
def namedLambda : SymbolId := ⟨5⟩
def backquote : SymbolId := ⟨6⟩
def unquote : SymbolId := ⟨7⟩
def unquoteSplicing : SymbolId := ⟨8⟩
def declare : SymbolId := ⟨9⟩
def special : SymbolId := ⟨10⟩
def inlined : SymbolId := ⟨11⟩
def notInlined : SymbolId := ⟨12⟩
def ampOptional : SymbolId := ⟨13⟩
def ampRest : SymbolId := ⟨14⟩
def ampBody : SymbolId := ⟨15⟩
def ampKey : SymbolId := ⟨16⟩
def ampAllowOtherKeys : SymbolId := ⟨17⟩
def ampWhole : SymbolId := ⟨18⟩
def ampEnvironment : SymbolId := ⟨19⟩
def cons : SymbolId := ⟨20⟩
def list : SymbolId := ⟨21⟩
def append : SymbolId := ⟨22⟩
def apply : SymbolId := ⟨23⟩
def vector : SymbolId := ⟨24⟩
def compile : SymbolId := ⟨25⟩
def load : SymbolId := ⟨26⟩
def eval : SymbolId := ⟨27⟩
def compileToplevelKey : SymbolId := ⟨28⟩
def loadToplevelKey : SymbolId := ⟨29⟩
def executeKey : SymbolId := ⟨30⟩
def allowOtherKeysKey : SymbolId := ⟨31⟩

/-- Lambda-list keywords never name parameters. -/
def isLambdaKeyword (id : SymbolId) : Bool :=
  [ampOptional, ampRest, ampBody, ampKey, ampAllowOtherKeys, ampWhole, ampEnvironment].contains id

end SymbolId

namespace SymbolTable

/-- The names in `COMMON-LISP` that the compiler recognises. -/
def syntaxNames : List String :=
  ["QUOTE", "FUNCTION", "LAMBDA", "NAMED-LAMBDA", "BACKQUOTE", "UNQUOTE", "UNQUOTE-SPLICING",
   "DECLARE", "SPECIAL", "INLINE", "NOTINLINE", "&OPTIONAL", "&REST", "&BODY", "&KEY",
   "&ALLOW-OTHER-KEYS", "&WHOLE", "&ENVIRONMENT", "CONS", "LIST", "APPEND", "APPLY", "VECTOR",
   "COMPILE", "LOAD", "EVAL"]

/-- The keywords that the compiler recognises. -/
def syntaxKeywords : List String :=
  ["COMPILE-TOPLEVEL", "LOAD-TOPLEVEL", "EXECUTE", "ALLOW-OTHER-KEYS"]

def internAllStandard (table : SymbolTable) (names : List String) : SymbolTable :=
  names.foldl (fun table name => (table.internStandard name).2) table

/-- The table that holds the compiler's own symbols, the special forms and the built-in
functions. -/
def standard : SymbolTable :=
  let table := initial.internAllStandard syntaxNames
  let table := syntaxKeywords.foldl (fun table name => (table.internKeyword name).2) table
  let table := table.internAllStandard (SpecialForm.all.map SpecialForm.name)
  table.internAllStandard (Primitive.all.map Primitive.name)

end SymbolTable

end LispScript
