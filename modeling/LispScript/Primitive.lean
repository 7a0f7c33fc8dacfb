import LispScript.Value

/-!
The built-in functions: their names, their argument counts, and the symbols that name them.
-/

namespace LispScript

/-- How many arguments a function takes; without a `max` there is no upper limit. -/
structure Arity where
  min : Nat
  max : Option Nat
deriving DecidableEq, Repr

namespace Arity

def exactly (n : Nat) : Arity := ⟨n, some n⟩
def atLeast (n : Nat) : Arity := ⟨n, none⟩
def between (min max : Nat) : Arity := ⟨min, some max⟩

def accepts (arity : Arity) (count : Nat) : Bool :=
  arity.min ≤ count && match arity.max with
    | some max => count ≤ max
    | none => true

def describe (arity : Arity) : String :=
  match arity.max with
  | some max => if max = arity.min then toString max else toString arity.min ++ " to " ++ toString max
  | none => "at least " ++ toString arity.min

end Arity

/-- The built-in functions. -/
inductive Primitive where
  | add
  | sub
  | mul
  | div
  | inc
  | dec
  | floorMod
  | numEq
  | lt
  | gt
  | le
  | ge
  | cons
  | car
  | cdr
  | rplaca
  | rplacd
  | list
  | listStar
  | append
  | length
  | reverse
  | nth
  | eq
  | eql
  | equal
  | null
  | not
  | consp
  | atom
  | listp
  | symbolp
  | keywordp
  | numberp
  | stringp
  | characterp
  | functionp
  | vectorp
  | symbolValue
  | symbolFunction
  | set
  | fset
  | boundp
  | fboundp
  | symbolName
  | symbolPlist
  | get
  | intern
  | makeSymbol
  | gensym
  | funcall
  | apply
  | values
  | valuesList
  | documentation
  | vector
  | aref
  | error
deriving DecidableEq, Repr

namespace Primitive

/-- Every built-in function, in the order in which their symbols are made. -/
def all : List Primitive :=
  [.add, .sub, .mul, .div, .inc, .dec, .floorMod, .numEq, .lt, .gt, .le, .ge, .cons, .car, .cdr,
    .rplaca, .rplacd, .list, .listStar, .append, .length, .reverse, .nth, .eq, .eql, .equal,
    .null, .not, .consp, .atom, .listp, .symbolp, .keywordp, .numberp, .stringp, .characterp,
    .functionp, .vectorp, .symbolValue, .symbolFunction, .set, .fset, .boundp, .fboundp,
    .symbolName, .symbolPlist, .get, .intern, .makeSymbol, .gensym, .funcall, .apply, .values,
    .valuesList, .documentation, .vector, .aref, .error]

/-- The name of the symbol that holds the function. -/
def name : Primitive → String
  | add => "+"
  | sub => "-"
  | mul => "*"
  | div => "/"
  | inc => "1+"
  | dec => "1-"
  | floorMod => "MOD"
  | numEq => "="
  | lt => "<"
  | gt => ">"
  | le => "<="
  | ge => ">="
  | cons => "CONS"
  | car => "CAR"
  | cdr => "CDR"
  | rplaca => "RPLACA"
  | rplacd => "RPLACD"
  | list => "LIST"
  | listStar => "LIST*"
  | append => "APPEND"
  | length => "LENGTH"
  | reverse => "REVERSE"
  | nth => "NTH"
  | eq => "EQ"
  | eql => "EQL"
  | equal => "EQUAL"
  | null => "NULL"
  | not => "NOT"
  | consp => "CONSP"
  | atom => "ATOM"
  | listp => "LISTP"
  | symbolp => "SYMBOLP"
  | keywordp => "KEYWORDP"
  | numberp => "NUMBERP"
  | stringp => "STRINGP"
  | characterp => "CHARACTERP"
  | functionp => "FUNCTIONP"
  | vectorp => "VECTORP"
  | symbolValue => "SYMBOL-VALUE"
  | symbolFunction => "SYMBOL-FUNCTION"
  | set => "SET"
  | fset => "FSET"
  | boundp => "BOUNDP"
  | fboundp => "FBOUNDP"
  | symbolName => "SYMBOL-NAME"
  | symbolPlist => "SYMBOL-PLIST"
  | get => "GET"
  | intern => "INTERN"
  | makeSymbol => "MAKE-SYMBOL"
  | gensym => "GENSYM"
  | funcall => "FUNCALL"
  | apply => "APPLY"
  | values => "VALUES"
  | valuesList => "VALUES-LIST"
  | documentation => "DOCUMENTATION"
  | vector => "VECTOR"
  | aref => "AREF"
  | error => "ERROR"

/-- The name of the routine that scripts call. -/
def hostName : Primitive → String
  | add => "add"
  | sub => "sub"
  | mul => "mul"
  | div => "div"
  | inc => "inc"
  | dec => "dec"
  | floorMod => "mod"
  | numEq => "numEq"
  | lt => "lt"
  | gt => "gt"
  | le => "le"
  | ge => "ge"
  | cons => "cons"
  | car => "car"
  | cdr => "cdr"
  | rplaca => "rplaca"
  | rplacd => "rplacd"
  | list => "list"
  | listStar => "listStar"
  | append => "append"
  | length => "length"
  | reverse => "reverse"
  | nth => "nth"
  | eq => "eq"
  | eql => "eql"
  | equal => "equal"
  | null => "isNull"
  | not => "not"
  | consp => "consp"
  | atom => "atom"
  | listp => "listp"
  | symbolp => "symbolp"
  | keywordp => "keywordp"
  | numberp => "numberp"
  | stringp => "stringp"
  | characterp => "characterp"
  | functionp => "functionp"
  | vectorp => "vectorp"
  | symbolValue => "symbolValue"
  | symbolFunction => "symbolFunction"
  | set => "set"
  | fset => "fset"
  | boundp => "boundp"
  | fboundp => "fboundp"
  | symbolName => "symbolName"
  | symbolPlist => "symbolPlist"
  | get => "get"
  | intern => "intern"
  | makeSymbol => "makeSymbol"
  | gensym => "gensym"
  | funcall => "funcall"
  | apply => "applyList"
  | values => "values"
  | valuesList => "valuesList"
  | documentation => "documentation"
  | vector => "vector"
  | aref => "aref"
  | error => "error"

def arity : Primitive → Arity
  | add => .atLeast 0
  | sub => .atLeast 1
  | mul => .atLeast 0
  | div => .atLeast 1
  | inc => .exactly 1
  | dec => .exactly 1
  | floorMod => .exactly 2
  | numEq => .atLeast 1
  | lt => .atLeast 1
  | gt => .atLeast 1
  | le => .atLeast 1
  | ge => .atLeast 1
  | cons => .exactly 2
  | car => .exactly 1
  | cdr => .exactly 1
  | rplaca => .exactly 2
  | rplacd => .exactly 2
  | list => .atLeast 0
  | listStar => .atLeast 1
  | append => .atLeast 0
  | length => .exactly 1
  | reverse => .exactly 1
  | nth => .exactly 2
  | eq => .exactly 2
  | eql => .exactly 2
  | equal => .exactly 2
  | null => .exactly 1
  | not => .exactly 1
  | consp => .exactly 1
  | atom => .exactly 1
  | listp => .exactly 1
  | symbolp => .exactly 1
  | keywordp => .exactly 1
  | numberp => .exactly 1
  | stringp => .exactly 1
  | characterp => .exactly 1
  | functionp => .exactly 1
  | vectorp => .exactly 1
  | symbolValue => .exactly 1
  | symbolFunction => .exactly 1
  | set => .exactly 2
  | fset => .exactly 2
  | boundp => .exactly 1
  | fboundp => .exactly 1
  | symbolName => .exactly 1
  | symbolPlist => .exactly 1
  | get => .between 2 3
  | intern => .between 1 2
  | makeSymbol => .exactly 1
  | gensym => .between 0 1
  | funcall => .atLeast 1
  | apply => .atLeast 2
  | values => .atLeast 0
  | valuesList => .exactly 1
  | documentation => .exactly 2
  | vector => .atLeast 0
  | aref => .exactly 2
  | error => .atLeast 1

/-- Whether the routine is given the acceptor of its caller as a first argument. -/
def takesAcceptor : Primitive → Bool
  | funcall | apply | values | valuesList => true
  | _ => false

/-- The symbol that holds the function. Five of them are also known to the compiler by name and
are made with its other symbols. -/
def symbol : Primitive → SymbolId
  | add => ⟨55⟩
  | sub => ⟨56⟩
  | mul => ⟨57⟩
  | div => ⟨58⟩
  | inc => ⟨59⟩
  | dec => ⟨60⟩
  | floorMod => ⟨61⟩
  | numEq => ⟨62⟩
  | lt => ⟨63⟩
  | gt => ⟨64⟩
  | le => ⟨65⟩
  | ge => ⟨66⟩
  | cons => ⟨20⟩
  | car => ⟨67⟩
  | cdr => ⟨68⟩
  | rplaca => ⟨69⟩
  | rplacd => ⟨70⟩
  | list => ⟨21⟩
  | listStar => ⟨71⟩
  | append => ⟨22⟩
  | length => ⟨72⟩
  | reverse => ⟨73⟩
  | nth => ⟨74⟩
  | eq => ⟨75⟩
  | eql => ⟨76⟩
  | equal => ⟨77⟩
  | null => ⟨78⟩
  | not => ⟨79⟩
  | consp => ⟨80⟩
  | atom => ⟨81⟩
  | listp => ⟨82⟩
  | symbolp => ⟨83⟩
  | keywordp => ⟨84⟩
  | numberp => ⟨85⟩
  | stringp => ⟨86⟩
  | characterp => ⟨87⟩
  | functionp => ⟨88⟩
  | vectorp => ⟨89⟩
  | symbolValue => ⟨90⟩
  | symbolFunction => ⟨91⟩
  | set => ⟨92⟩
  | fset => ⟨93⟩
  | boundp => ⟨94⟩
  | fboundp => ⟨95⟩
  | symbolName => ⟨96⟩
  | symbolPlist => ⟨97⟩
  | get => ⟨98⟩
  | intern => ⟨99⟩
  | makeSymbol => ⟨100⟩
  | gensym => ⟨101⟩
  | funcall => ⟨102⟩
  | apply => ⟨23⟩
  | values => ⟨103⟩
  | valuesList => ⟨104⟩
  | documentation => ⟨105⟩
  | vector => ⟨24⟩
  | aref => ⟨106⟩
  | error => ⟨107⟩

def ofSymbol? (id : SymbolId) : Option Primitive := all.find? (·.symbol == id)

def ofName? (name : String) : Option Primitive := all.find? (·.name == name)

theorem mem_all (p : Primitive) : p ∈ all := by cases p <;> decide

theorem ofSymbol?_symbol (p : Primitive) : ofSymbol? p.symbol = some p := by cases p <;> rfl

end Primitive

end LispScript
