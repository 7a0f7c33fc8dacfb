import LispScript.Proofs.World

/-!
The discipline of compiled scripts: rules that give expressions a kind and tell what statements
return. Every variable is declared before it is used, `undefined` and bundles stay where scripts
expect them, and calls hand an acceptor on. There is a rule for each shape of code that the compiler
makes.
-/

namespace LispScript.Discipline

open Script Compiler

/-- What code can rely on where it stands: the kinds of the variables in force, and variables that
are known to be those of its own scope, though they may have no value yet. -/
structure Frame where
  kinds : Layout
  pending : List String := []

/-- The names that scripts use beside the generated ones. -/
def reservedNames : List String := ["values", "arguments", "cf"]

/-- The packages that a session has. -/
def packageNames : List String := ["KEYWORD", "COMMON-LISP", "COMMON-LISP-USER"]

namespace Frame

def bind (frame : Frame) (name : String) (kind : Kind) : Frame :=
  { frame with kinds := Layout.bind frame.kinds name kind }

def bindAll (frame : Frame) (names : List String) (kind : Kind) : Frame :=
  { frame with kinds := fun other => if other ∈ names then some kind else frame.kinds other }

def pend (frame : Frame) (names : List String) : Frame :=
  { frame with pending := names ++ frame.pending }

/-- The frame of a new scope, in which `arguments` is no longer that of the function around. -/
def inside (frame : Frame) : Frame :=
  { kinds := fun other => if other = "arguments" then none else frame.kinds other }

/-- The frame of a compiled function's body. The parameters beyond the arguments are pending. -/
def enter (frame : Frame) (manyValues : Bool) (count : Nat) (hosts : List String) : Frame :=
  ((((frame.inside.bind "values" (.acceptor manyValues)).bind "arguments"
    (.arguments count)).bindAll (hosts.take (count - 1)) .datum).pend hosts)

/-- A name that can be declared. -/
def Fresh (frame : Frame) (name : String) : Prop :=
  frame.kinds name = none ∧ name ∉ reservedNames

/-- Names that a function can have as parameters. -/
def CanEnter (frame : Frame) (hosts : List String) : Prop :=
  hosts.Nodup ∧ ∀ host ∈ hosts, frame.Fresh host

/-- Code that yields an acceptor. -/
def Accepts (frame : Frame) (acceptor : Expr) (manyValues : Bool) : Prop :=
  acceptor = .routine (acceptorRoutine manyValues) ∨
    acceptor = .ident "values" ∧ frame.kinds "values" = some (.acceptor manyValues)

/-- Code that yields a symbol and does nothing else. -/
def Constant (frame : Frame) (code : Expr) : Prop :=
  code = .nil ∨ code = .t ∨ ∃ name, code = .ident name ∧ frame.kinds name = some .symbol

end Frame

/-- The operators on numbers and strings that give data. -/
def arithmeticOps : List BinaryOp := [.add, .sub, .mul]

/-- The operators that give truth values. -/
def comparisonOps : List BinaryOp := [.lt, .gt, .le, .ge, .strictEq, .strictNe]

/-- What identifies the target of a transfer and what the transfer carries. -/
inductive Handles : TransferKind → Kind → Kind → Prop where
  | block (manyValues : Bool) : Handles .block (.block manyValues) (.result manyValues)
  | catching : Handles .catching .datum .many
  | tagbody : Handles .tagbody .tagbody .datum

/-- The cases for missing optional parameters, by the number of arguments. -/
def defaultCode : Nat → List (String × Expr) → List Case
  | _, [] => []
  | position, (host, default) :: params =>
      .case (countLiteral position) [assignStmt host default] :: defaultCode (position + 1) params

/-- The search for the argument of a keyword parameter, and its default. -/
def keyCode (index : String) (first : Nat) (host : String) (flag? : Option String)
    (keyword default : Expr) : List Stmt :=
  [scanPairs index first [.branch (.binary .strictEq (argumentAt (.ident index)) keyword)
      ([assignStmt host (pairedArgument index)] ++
        flag?.toList.map (fun flag => assignStmt flag .t) ++ [.leave none]) []],
    .branch (.binary .strictEq (.ident host) .undefined) [assignStmt host default] []]

/-- A new function with properties. -/
def propertiesCode (variable_ : String) (function : Expr) (properties : List (String × String)) :
    Expr :=
  .inPlace [variable_] [function]
    (properties.map (fun (property, text) =>
      Stmt.effect (.assign (.member (.ident variable_) property) (.string text))) ++
      [.ret (.ident variable_)])

/-- A function that is defined for others to see: the variable that holds it, the one that holds it
while it gets its properties, its parameters after the acceptor, its body and its properties. -/
structure LocalFunction where
  host : String
  holder : String
  hosts : List String
  body : List Stmt
  properties : List (String × String)

def LocalFunction.code (local_ : LocalFunction) : Stmt :=
  .define local_.host (propertiesCode local_.holder
    (.function ("values" :: local_.hosts) local_.body) local_.properties)

/-- The loop of a tagbody: each section has a label and expressions. -/
def tagbodyLoop (loopLabel token branch : String) (sections : List (Nat × List Expr)) : Stmt :=
  .loop (some loopLabel) (.bool true)
    [intercept [.select (.ident branch)
        (sections.map fun (label, code) => .case (labelExpr label) (code.map .effect)),
        .leave (some loopLabel)]
      .tagbody (.ident token) [.effect (.assign (.ident branch) signalPayload)]]

/-- A function literal called where it stands opens its scope without being made an object. -/
def IsNamed (callee : Expr) : Prop := ∀ params body, callee ≠ .function params body

/-- What can be said of code: the kind of an expression, or of what statements return, which do not
end in any other way but by an exit or a failure. -/
inductive Judgement where
  | expr (code : Expr) (kind : Kind)
  | returns (code : List Stmt) (kind : Kind)

inductive Derivable : Frame → Judgement → Prop where
  | number : Derivable frame (.expr (.number n) .datum)
  | string : Derivable frame (.expr (.string text) .datum)
  | nil : Derivable frame (.expr .nil .symbol)
  | t : Derivable frame (.expr .t .symbol)
  | ident (known : frame.kinds name = some kind) : Derivable frame (.expr (.ident name) kind)
  | acceptor (accepts : frame.Accepts acceptor manyValues) :
      Derivable frame (.expr acceptor (.acceptor manyValues))
  | widen (within : kind.Within wider) (code : Derivable frame (.expr e kind)) :
      Derivable frame (.expr e wider)
  | call (named : IsNamed callee) (accepts : frame.Accepts acceptor manyValues)
      (function : Derivable frame (.expr callee .datum))
      (arguments : ∀ arg ∈ args, Derivable frame (.expr arg .datum)) :
      Derivable frame (.expr (.call callee (acceptor :: args)) (.result manyValues))
  | callLiteral (accepts : frame.Accepts acceptor manyValues) (params : frame.CanEnter hosts)
      (body : ∀ manyValues count, 1 ≤ count → count < Number.exactLimit →
        Derivable (frame.enter manyValues count hosts) (.returns code (.result manyValues)))
      (arguments : ∀ arg ∈ args, Derivable frame (.expr arg .datum)) :
      Derivable frame (.expr (.call (.function ("values" :: hosts) code) (acceptor :: args))
        (.result manyValues))
  | function (params : frame.CanEnter hosts)
      (body : ∀ manyValues count, 1 ≤ count → count < Number.exactLimit →
        Derivable (frame.enter manyValues count hosts) (.returns code (.result manyValues))) :
      Derivable frame (.expr (.function ("values" :: hosts) code) .function)
  | deliver (accepts : frame.Accepts acceptor manyValues)
      (arguments : ∀ arg ∈ args, Derivable frame (.expr arg .datum)) :
      Derivable frame (.expr (.call acceptor args) (.result manyValues))
  | wrap (body : Derivable frame.inside (.returns code kind)) :
      Derivable frame (.expr (.wrap code) kind)
  | inPlace (name_ne : name ≠ "arguments") (plain : ¬ held.IsToken)
      (values : name = "values" → ∃ manyValues, held = .acceptor manyValues)
      (value : Derivable frame (.expr e held))
      (body : Derivable (frame.inside.bind name held) (.returns code kind)) :
      Derivable frame (.expr (.inPlace [name] [e] code) kind)
  | bundle (value : Derivable (frame.inside.bind "values" (.acceptor true)) (.expr e .many)) :
      Derivable frame (.expr (.wrap [.define "values" (.routine .packValues), .ret e]) .many)
  | arithmetic (op_mem : op ∈ arithmeticOps) (left : Derivable frame (.expr l .datum))
      (right : Derivable frame (.expr r .datum)) :
      Derivable frame (.expr (.binary op l r) .datum)
  | negate (operand : Derivable frame (.expr e .datum)) :
      Derivable frame (.expr (.unary .neg e) .datum)
  | choose (op_mem : op ∈ comparisonOps) (left : Derivable frame (.expr l .datum))
      (right : Derivable frame (.expr r .datum)) (yes : Derivable frame (.expr y kind))
      (no : Derivable frame (.expr n kind)) :
      Derivable frame (.expr (.cond (.binary op l r) y n) kind)
  | primitive (plain : p.takesAcceptor = false)
      (arguments : ∀ arg ∈ args, Derivable frame (.expr arg .datum)) :
      Derivable frame (.expr (.callPrimitive p args) .datum)
  | primitiveValues (takes : p.takesAcceptor = true) (accepts : frame.Accepts acceptor manyValues)
      (arguments : ∀ arg ∈ args, Derivable frame (.expr arg .datum)) :
      Derivable frame (.expr (.callPrimitive p (acceptor :: args)) (.result manyValues))
  | multipleValueCall (function : Derivable frame (.expr f .datum))
      (arguments : Derivable frame (.expr e (.collector manyValues))) :
      Derivable frame (.expr (.callRoutine .applyVector [.callRoutine .coerceFunction [f], e])
        (.result manyValues))
  | collect (accepts : frame.Accepts acceptor manyValues) :
      Derivable frame (.expr (.array [acceptor]) (.collector manyValues))
  | appendValues (arguments : Derivable frame (.expr e (.collector manyValues)))
      (values : Derivable frame (.expr v .many)) :
      Derivable frame (.expr (.callRoutine .appendValues [e, v]) (.collector manyValues))
  | assign (known : frame.kinds name = some .datum) (value : Derivable frame (.expr e .datum)) :
      Derivable frame (.expr (.assign (.ident name) e) .datum)
  | assignSlot (within : kind.Within .optional) (place : Derivable frame (.expr p .symbol))
      (value : Derivable frame (.expr e kind)) :
      Derivable frame (.expr (.assign (.member p "value") e) kind)
  | assignProperty (object : Derivable frame (.expr o .function))
      (value : Derivable frame (.expr e .datum)) :
      Derivable frame (.expr (.assign (.member o property) e) .datum)
  | slotValue (place : Derivable frame (.expr p .symbol)) :
      Derivable frame (.expr (.member p "value") .optional)
  | argumentsLength (known : frame.kinds "arguments" = some (.arguments count)) :
      Derivable frame (.expr argumentsLength .datum)
  | comma (effects : ∀ e ∈ es, Derivable frame (.expr e .datum))
      (last : Derivable frame (.expr e kind)) :
      Derivable frame (.expr (.comma (es ++ [e])) kind)
  | internSymbol (package : packageName ∈ packageNames ∨ packageName = "") :
      Derivable frame
        (.expr (.callRoutine .internSymbol [.string text, .string packageName]) .symbol)
  | uninternedSymbol :
      Derivable frame (.expr (.callRoutine .uninternedSymbol [.string text, .number n]) .symbol)
  | character : Derivable frame (.expr (.callRoutine .character [.number n]) .datum)
  | ret (value : Derivable frame (.expr e kind)) : Derivable frame (.returns [.ret e] kind)
  | effect (value : Derivable frame (.expr e held))
      (rest : Derivable frame (.returns code kind)) :
      Derivable frame (.returns (.effect e :: code) kind)
  | define (fresh : frame.Fresh name) (plain : ¬ held.IsToken)
      (value : Derivable frame (.expr e held))
      (rest : Derivable (frame.bind name held) (.returns code kind)) :
      Derivable frame (.returns (.define name e :: code) kind)
  | defineToken (fresh : frame.Fresh name) (token : held.IsToken)
      (rest : Derivable ((frame.bind name held).pend [name]) (.returns code kind)) :
      Derivable frame (.returns (.define name (.array []) :: code) kind)
  | declare (fresh : frame.Fresh name)
      (rest : Derivable (frame.pend [name]) (.returns code kind)) :
      Derivable frame (.returns (.declare name :: code) kind)
  | settle (fresh : frame.Fresh name) (pending : name ∈ frame.pending)
      (value : Derivable frame (.expr e .datum))
      (rest : Derivable (frame.bind name .datum) (.returns code kind)) :
      Derivable frame (.returns (assignStmt name e :: code) kind)
  | defineFunctions {locals : List LocalFunction} (distinct : (locals.map (·.host)).Nodup)
      (fresh : ∀ f ∈ locals, frame.Fresh f.host)
      (holders : ∀ f ∈ locals, f.holder ∉ reservedNames)
      (params : ∀ f ∈ locals,
        (frame.bindAll (locals.map (·.host)) .datum).CanEnter f.hosts)
      (bodies : ∀ f ∈ locals, ∀ manyValues count, 1 ≤ count → count < Number.exactLimit →
        Derivable ((frame.bindAll (locals.map (·.host)) .datum).enter manyValues count f.hosts)
          (.returns f.body (.result manyValues)))
      (rest : Derivable (frame.bindAll (locals.map (·.host)) .datum) (.returns code kind)) :
      Derivable frame (.returns (locals.map (·.code) ++ code) kind)
  | checkArgs (known : frame.kinds "arguments" = some (.arguments count))
      (rest : count = required + 1 → Derivable frame (.returns code kind)) :
      Derivable frame (.returns
        (.effect (.callRoutine .checkArgs [argumentCount, countLiteral required]) :: code) kind)
  | checkArgsAtLeast (known : frame.kinds "arguments" = some (.arguments count))
      (rest : required + 1 ≤ count → Derivable frame (.returns code kind)) :
      Derivable frame (.returns
        (.effect (.callRoutine .checkArgsAtLeast [argumentCount, countLiteral required]) :: code)
        kind)
  | checkArgsAtMost (known : frame.kinds "arguments" = some (.arguments count))
      (rest : Derivable frame (.returns code kind)) :
      Derivable frame (.returns
        (.effect (.callRoutine .checkArgsAtMost [argumentCount, countLiteral limit]) :: code) kind)
  | supplyDefault (known : frame.kinds "arguments" = some (.arguments count))
      (rest : Derivable frame (.returns
        ((if count ≤ position + 1 then [assignStmt host e] else []) ++ code) kind)) :
      Derivable frame (.returns
        (.branch (.binary .le argumentCount (countLiteral position)) [assignStmt host e] [] ::
          code) kind)
  | selectDefaults (known : frame.kinds "arguments" = some (.arguments count))
      (supplied : position + 1 ≤ count)
      (rest : Derivable frame (.returns
        ((params.drop (count - 1 - position)).map (fun (host, e) => assignStmt host e) ++ code)
        kind)) :
      Derivable frame (.returns (.select argumentCount (defaultCode position params) :: code) kind)
  | collectRest (known : frame.kinds "arguments" = some (.arguments count)) (first_pos : 1 ≤ first)
      (freshHost : frame.Fresh host) (freshIndex : frame.Fresh index) (distinct : host ≠ index)
      (rest : Derivable (frame.bind host .datum) (.returns code kind)) :
      Derivable frame (.returns (collectRest host index first ++ code) kind)
  | pairCheck (known : frame.kinds "arguments" = some (.arguments count))
      (rest : (count ≤ first ∨ 2 ∣ count - first) → Derivable frame (.returns code kind)) :
      Derivable frame (.returns (pairCheck first :: code) kind)
  | searchKey (known : frame.kinds "arguments" = some (.arguments count)) (first_pos : 1 ≤ first)
      (paired : count ≤ first ∨ 2 ∣ count - first)
      (freshHost : frame.Fresh host) (freshIndex : frame.Fresh index) (distinct : host ≠ index)
      (pendingHost : host ∈ frame.pending) (pendingIndex : index ∈ frame.pending)
      (keyword_constant : frame.Constant keyword)
      (flag_known : ∀ flag ∈ flag?, frame.kinds flag = some .datum)
      (default_datum : Derivable frame (.expr fallback .datum))
      (rest : Derivable (frame.bind host .datum) (.returns code kind)) :
      Derivable frame (.returns (keyCode index first host flag? keyword fallback ++ code) kind)
  | unknownKeys (known : frame.kinds "arguments" = some (.arguments count))
      (first_pos : 1 ≤ first) (paired : count ≤ first ∨ 2 ∣ count - first)
      (freshIndex : frame.Fresh index) (pendingIndex : index ∈ frame.pending)
      (freshAllow : frame.Fresh allow) (distinct : allow ≠ index)
      (keywords_constant : ∀ keyword ∈ keywords, frame.Constant keyword)
      (allowKey_constant : frame.Constant allowKey)
      (rest : Derivable frame (.returns code kind)) :
      Derivable frame
        (.returns (unknownKeyCheck index allow first keywords allowKey ++ code) kind)
  | protect {es : List Expr} (body : Derivable frame (.returns code kind))
      (cleanup : ∀ e ∈ es, Derivable frame (.expr e .optional)) :
      Derivable frame (.returns [.guarded code .none (.always (es.map .effect))] kind)
  | raise (handles : Handles transferKind target carried)
      (known : frame.kinds name = some target)
      (payload : Derivable frame (.expr e carried)) (label : Derivable frame (.expr l .datum)) :
      Derivable frame (.returns [.raise (transferExpr transferKind (.ident name) e l)] kind)
  | interceptValues (handles : Handles transferKind target carried)
      (within : carried.Within .many) (known : frame.kinds name = some target)
      (name_ne : name ≠ "cf") (own : transferKind = .block → name ∈ frame.pending)
      (accepts : frame.Accepts acceptor manyValues)
      (block : Derivable frame (.returns code (.result manyValues))) :
      Derivable frame (.returns [intercept code transferKind (.ident name)
        [.ret (.callRoutine .deliverValues [acceptor, signalPayload])]] (.result manyValues))
  | interceptPayload (handles : Handles transferKind target kind)
      (known : frame.kinds name = some target) (name_ne : name ≠ "cf")
      (own : transferKind = .block → name ∈ frame.pending)
      (block : Derivable frame (.returns code kind)) :
      Derivable frame
        (.returns [intercept code transferKind (.ident name) [.ret signalPayload]] kind)
  | dispatch (knownToken : frame.kinds token = some .tagbody) (token_ne : token ≠ "cf")
      (knownBranch : frame.kinds branch = some .datum) (branch_ne : branch ≠ "cf")
      (sections_datum : ∀ part ∈ sections, ∀ e ∈ part.2, Derivable frame (.expr e .datum))
      (rest : Derivable frame (.returns code kind)) :
      Derivable frame (.returns (tagbodyLoop loopLabel token branch sections :: code) kind)

end LispScript.Discipline
