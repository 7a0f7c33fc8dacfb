import LispScript.Value
import Std.Data.TreeMap

/-!
What names mean to the compiler: lexical environments over a global one, with four namespaces.

A binding itself never changes. Its declarations do, and every environment that shares the binding
sees the change, so they are kept apart and bindings refer to them.
-/

namespace LispScript.Compiler

inductive Namespace where
  | vars
  | functions
  | blocks
  | tags
deriving DecidableEq, Repr

/-- What a name compiles to: the symbol's own slot, a script variable, the function of a macro, a
value put in place, the variable that identifies a run of a block, or a tag of a tagbody with the
variable that identifies a run of it. -/
inductive Reference where
  | slot
  | host (name : String)
  | expander (function : Value)
  | constant (value : Value)
  | block (token : String) (manyValues : Bool)
  | tag (token : String) (label : Nat)
deriving Repr, Inhabited

structure Declarations where
  special : Bool := false
  notInline : Bool := false
  constant : Bool := false
  used : Bool := false
deriving DecidableEq, Repr, Inhabited

structure Binding where
  name : Value
  space : Namespace
  reference : Reference
  /-- Where the binding's declarations are. -/
  declarations : Nat
deriving Repr

/-- A lexical environment, the innermost binding first. -/
abbrev Environment := List Binding

/-- The innermost binding of a name. -/
def Environment.lookup? (env : Environment) (name : Value) (space : Namespace) : Option Binding :=
  env.find? fun binding => binding.space == space && binding.name.eql name

/-- A symbol in a namespace, as one number. -/
def globalKey (name : SymbolId) (space : Namespace) : Nat := 4 * name.index + space.ctorIdx

theorem globalKey_inj {name other : SymbolId} {space room : Namespace} :
    globalKey name space = globalKey other room ↔ name = other ∧ space = room := by
  obtain ⟨n⟩ := name
  obtain ⟨m⟩ := other
  cases space <;> cases room <;> simp [globalKey, Namespace.ctorIdx] <;> omega

/-- The global environment and the declarations of all bindings. -/
structure Bindings where
  globals : Std.TreeMap Nat Binding compare := {}
  declarations : Array Declarations := #[]
deriving Inhabited

namespace Bindings

def declared (bindings : Bindings) (binding : Binding) : Declarations :=
  bindings.declarations.getD binding.declarations {}

def updateDeclared (bindings : Bindings) (binding : Binding) (f : Declarations → Declarations) :
    Bindings :=
  { bindings with declarations := bindings.declarations.modify binding.declarations f }

def markUsed (bindings : Bindings) (binding : Binding) : Bindings :=
  bindings.updateDeclared binding fun d => { d with used := true }

def setSpecial (bindings : Bindings) (binding : Binding) (on : Bool) : Bindings :=
  bindings.updateDeclared binding fun d => { d with special := on }

def setNotInline (bindings : Bindings) (binding : Binding) (on : Bool) : Bindings :=
  bindings.updateDeclared binding fun d => { d with notInline := on }

def setConstant (bindings : Bindings) (binding : Binding) (on : Bool) : Bindings :=
  bindings.updateDeclared binding fun d => { d with constant := on }

/-- A new binding with the given declarations. -/
def bindWith (bindings : Bindings) (name : Value) (space : Namespace) (reference : Reference)
    (declarations : Declarations) : Binding × Bindings :=
  (⟨name, space, reference, bindings.declarations.size⟩,
    { bindings with declarations := bindings.declarations.push declarations })

def bind (bindings : Bindings) (name : Value) (space : Namespace) (reference : Reference) :
    Binding × Bindings :=
  bindings.bindWith name space reference {}

/-- A binding like the given one whose declarations can change without affecting it. -/
def shadow (bindings : Bindings) (binding : Binding) : Binding × Bindings :=
  bindings.bindWith binding.name binding.space binding.reference
    { bindings.declared binding with used := false }

def getGlobal? (bindings : Bindings) (name : SymbolId) (space : Namespace) : Option Binding :=
  bindings.globals[globalKey name space]?

def putGlobal (bindings : Bindings) (name : SymbolId) (space : Namespace) (binding : Binding) :
    Bindings :=
  { bindings with globals := bindings.globals.insert (globalKey name space) binding }

/-- The global binding of a name. One that is missing is made, and means the symbol's slot. -/
def lookupGlobal (bindings : Bindings) (name : SymbolId) (space : Namespace) :
    Binding × Bindings :=
  match bindings.getGlobal? name space with
  | some binding => (binding, bindings)
  | none =>
      let (binding, bindings) := bindings.bind (.ofSymbol name) space .slot
      (binding, bindings.putGlobal name space binding)

/-- Puts a new global binding in place of an old one, of which it keeps what was declared about
special variables and inlining. -/
def define (bindings : Bindings) (name : SymbolId) (space : Namespace) (reference : Reference) :
    Binding × Bindings :=
  let kept : Declarations := match bindings.getGlobal? name space with
    | some old =>
        { special := (bindings.declared old).special, notInline := (bindings.declared old).notInline }
    | none => {}
  let (binding, bindings) := bindings.bindWith (.ofSymbol name) space reference kept
  (binding, bindings.putGlobal name space binding)

/-- The meaning of a name: its innermost binding or else the global one, which blocks and tags do
not have. -/
def resolve (bindings : Bindings) (env : Environment) (name : Value) (space : Namespace) :
    Option Binding × Bindings :=
  match env.lookup? name space with
  | some binding => (some binding, bindings)
  | none =>
      match space, name.asSymbol? with
      | .vars, some id | .functions, some id =>
          let (binding, bindings) := bindings.lookupGlobal id space
          (some binding, bindings)
      | _, _ => (none, bindings)

/-- The bindings before anything is compiled: `T` and `NIL` are constants. -/
def initial : Bindings :=
  let (t, bindings) := ({} : Bindings).define SymbolId.t .vars (.constant .t)
  let (nil, bindings) := (bindings.setConstant t true).define SymbolId.nil .vars
    (.constant .nil)
  bindings.setConstant nil true

end Bindings

end LispScript.Compiler
