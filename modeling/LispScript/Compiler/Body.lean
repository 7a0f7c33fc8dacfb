import LispScript.Compiler.Literal

/-!
Bodies: what precedes their forms, and sequences of forms.
-/

namespace LispScript.Compiler

open Script

/-- What declarations say about names, in order. Only the first mention of a special variable is
kept. -/
structure DeclSpecs where
  specials : List SymbolId := []
  notInline : List SymbolId := []
  inlined : List SymbolId := []
deriving Repr

/-- A body taken apart. -/
structure Body where
  docstring : Option String := none
  declarations : DeclSpecs := {}
  forms : List Value

section Declarations

def isDeclaration (form : Value) : Compile Bool := do
  return ((← carOf? form).bind Value.asSymbol?) == some SymbolId.declare

def DeclSpecs.add (specs : DeclSpecs) (kind id : SymbolId) : DeclSpecs :=
  if kind = SymbolId.special then
    if specs.specials.contains id then specs else { specs with specials := specs.specials ++ [id] }
  else if kind = SymbolId.notInlined then { specs with notInline := specs.notInline ++ [id] }
  else { specs with inlined := specs.inlined ++ [id] }

/-- The names under one kind of declaration. -/
def addDeclared (form : Value) (kind : SymbolId) : DeclSpecs → List Value → Compile DeclSpecs
  | specs, [] => return specs
  | specs, name :: rest =>
      match name.asSymbol? with
      | some id => addDeclared form kind (specs.add kind id) rest
      | none => malformed form "declared name must be a symbol"

/-- The declaration specifiers of a form. Kinds other than the three that matter here are passed
over, names and all. -/
def addSpecifiers (form : Value) : DeclSpecs → List Value → Compile DeclSpecs
  | specs, [] => return specs
  | specs, specifier :: rest => do
      match (← heap).listItems? specifier with
      | none => malformed form "declaration specifier must be a list"
      | some [] => addSpecifiers form specs rest
      | some (kind :: names) =>
          match kind.asSymbol? with
          | some kind =>
              if [SymbolId.special, SymbolId.notInlined, SymbolId.inlined].contains kind then
                addSpecifiers form (← addDeclared form kind specs names) rest
              else addSpecifiers form specs rest
          | none => addSpecifiers form specs rest

/-- What a declaration adds to what is declared already. -/
def parseDeclaration (form : Value) (specs : DeclSpecs) : Compile DeclSpecs := do
  match ← restItems? form with
  | some specifiers => addSpecifiers form specs specifiers
  | none => malformed form "dotted declaration"

/-- Takes a docstring, where one is allowed and more forms follow, and the leading declarations off
a list of forms. -/
def parseBodyFrom (body : Body) (allowDocstring : Bool) : List Value → Compile Body
  | [] => return { body with forms := [] }
  | form :: rest => do
      match form with
      | .string _ text =>
          if allowDocstring && body.docstring.isNone && !rest.isEmpty then
            parseBodyFrom { body with docstring := some text } allowDocstring rest
          else return { body with forms := form :: rest }
      | _ =>
          if ← isDeclaration form then
            let declarations ← parseDeclaration form body.declarations
            parseBodyFrom { body with declarations } allowDocstring rest
          else return { body with forms := form :: rest }

def parseBody (forms : List Value) (allowDocstring : Bool) : Compile Body :=
  parseBodyFrom { forms } allowDocstring forms

/-- Puts a copy of a name's binding, with a changed declaration, in front of an environment. -/
def redeclare (env : Environment) (id : SymbolId) (space : Namespace)
    (change : Binding → Bindings → Bindings) : Compile Environment := do
  match ← resolve { env } (.ofSymbol id) space with
  | none => return env
  | some current => do
      let shadow ← onBindings (·.shadow current)
      modifyBindings (change shadow)
      return shadow :: env

/-- Declarations that do not belong to a binding affect copies of the bindings in force, so that
nothing outside the body sees them. The names in `bound` are left to the form that binds them. -/
def applyFreeDeclarations (env : Environment) (specs : DeclSpecs) (bound : List SymbolId) :
    Compile Environment := do
  let free := specs.specials.filter fun id => !bound.contains id
  let env ← free.foldlM (fun env id =>
    redeclare env id .vars fun b bindings => bindings.setSpecial b true) env
  let env ← specs.notInline.foldlM (fun env id =>
    redeclare env id .functions fun b bindings => bindings.setNotInline b true) env
  specs.inlined.foldlM (fun env id =>
    redeclare env id .functions fun b bindings => bindings.setNotInline b false) env

end Declarations

section Sequences

variable (compile : FormCompiler) (context : Context)

/-- Forms evaluated for effect; those whose code has none are left out. -/
def compileEffects (forms : List Value) : Compile (List Expr) := do
  let values ← forms.mapM (compile context.single)
  return values.filter (!·.isConstant)

/-- Statements that evaluate the forms in order and return the last one's values. -/
def compileBody (forms : List Value) : Compile (List Stmt) := do
  match forms.getLast? with
  | none => return [.ret .nil]
  | some last => do
      let effects ← compileEffects compile context forms.dropLast
      return effects.map .effect ++ [.ret (← compile context last)]

/-- The same sequence as one expression. -/
def compileProgn (forms : List Value) : Compile Expr := do
  match forms.getLast? with
  | none => return .nil
  | some last => do
      let effects ← compileEffects compile context forms.dropLast
      let value ← compile context last
      return if effects.isEmpty then value else .comma (effects ++ [value])

end Sequences

end LispScript.Compiler
