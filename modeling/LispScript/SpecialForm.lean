import LispScript.Value

/-!
The operators that the compiler treats in ways of their own.
-/

namespace LispScript

/-- The special forms. -/
inductive SpecialForm where
  | quote
  | function
  | conditional
  | progn
  | setq
  | bind
  | bindInOrder
  | flet
  | labels
  | macrolet
  | locally
  | typed
  | evalWhen
  | declaim
  | macroDefinition
  | constantDefinition
  | backquote
  | unquote
  | unquoteSplicing
  | multipleValueCall
  | multipleValueProg1
  | block
  | returnFrom
  | catching
  | throwing
  | tagbody
  | go
  | unwindProtect
deriving DecidableEq, Repr

namespace SpecialForm

/-- Every special form, in the order in which their symbols are made. -/
def all : List SpecialForm :=
  [.quote, .function, .conditional, .progn, .setq, .bind, .bindInOrder, .flet, .labels,
    .macrolet, .locally, .typed, .evalWhen, .declaim, .macroDefinition, .constantDefinition,
    .backquote, .unquote, .unquoteSplicing, .multipleValueCall, .multipleValueProg1, .block,
    .returnFrom, .catching, .throwing, .tagbody, .go, .unwindProtect]

def name : SpecialForm → String
  | quote => "QUOTE"
  | function => "FUNCTION"
  | conditional => "IF"
  | progn => "PROGN"
  | setq => "SETQ"
  | bind => "LET"
  | bindInOrder => "LET*"
  | flet => "FLET"
  | labels => "LABELS"
  | macrolet => "MACROLET"
  | locally => "LOCALLY"
  | typed => "THE"
  | evalWhen => "EVAL-WHEN"
  | declaim => "DECLAIM"
  | macroDefinition => "DEFMACRO"
  | constantDefinition => "DEFCONSTANT"
  | backquote => "BACKQUOTE"
  | unquote => "UNQUOTE"
  | unquoteSplicing => "UNQUOTE-SPLICING"
  | multipleValueCall => "MULTIPLE-VALUE-CALL"
  | multipleValueProg1 => "MULTIPLE-VALUE-PROG1"
  | block => "BLOCK"
  | returnFrom => "RETURN-FROM"
  | catching => "CATCH"
  | throwing => "THROW"
  | tagbody => "TAGBODY"
  | go => "GO"
  | unwindProtect => "UNWIND-PROTECT"

/-- The symbol that names the form. -/
def symbol : SpecialForm → SymbolId
  | quote => ⟨2⟩
  | function => ⟨3⟩
  | conditional => ⟨32⟩
  | progn => ⟨33⟩
  | setq => ⟨34⟩
  | bind => ⟨35⟩
  | bindInOrder => ⟨36⟩
  | flet => ⟨37⟩
  | labels => ⟨38⟩
  | macrolet => ⟨39⟩
  | locally => ⟨40⟩
  | typed => ⟨41⟩
  | evalWhen => ⟨42⟩
  | declaim => ⟨43⟩
  | macroDefinition => ⟨44⟩
  | constantDefinition => ⟨45⟩
  | backquote => ⟨6⟩
  | unquote => ⟨7⟩
  | unquoteSplicing => ⟨8⟩
  | multipleValueCall => ⟨46⟩
  | multipleValueProg1 => ⟨47⟩
  | block => ⟨48⟩
  | returnFrom => ⟨49⟩
  | catching => ⟨50⟩
  | throwing => ⟨51⟩
  | tagbody => ⟨52⟩
  | go => ⟨53⟩
  | unwindProtect => ⟨54⟩

def ofSymbol? (id : SymbolId) : Option SpecialForm := all.find? (·.symbol == id)

theorem mem_all (form : SpecialForm) : form ∈ all := by cases form <;> decide

theorem ofSymbol?_symbol (form : SpecialForm) : ofSymbol? form.symbol = some form := by
  cases form <;> rfl

end SpecialForm

end LispScript
