import LispScript.Symbol

/-!
The symbol table: every symbol and package, the current package, and the operations that add to
them. Nothing is ever taken away, so an id stays valid for ever.
-/

namespace LispScript

namespace PackageId

def keyword : PackageId := ⟨0⟩
def commonLisp : PackageId := ⟨1⟩
def commonLispUser : PackageId := ⟨2⟩

end PackageId

/-- Why an operation on packages is refused. -/
inductive PackageError where
  | noSuchPackage (name : String)
  | packageExists (name : String)
  | inaccessible (symbol package : String)
  | notExternal (symbol package : String)
deriving DecidableEq, Repr

def PackageError.message : PackageError → String
  | noSuchPackage name => "package " ++ name ++ " does not exist"
  | packageExists name => "a package named " ++ name ++ " already exists"
  | inaccessible symbol package =>
      "symbol " ++ symbol ++ " is not accessible in package " ++ package
  | notExternal symbol package => "symbol " ++ symbol ++ " is not external in package " ++ package

structure SymbolTable where
  symbols : Array Symbol
  packages : Array Package
  /-- The package of each name and nickname. -/
  packageNames : Std.TreeMap String PackageId compare := {}
  current : PackageId
  /-- How many symbols were made with a generated name. -/
  generated : Nat := 0
deriving Repr, Inhabited

/-- Changes of the symbol table that can be refused. A refusal comes with the table as it then is. -/
abbrev TableChange := EStateM PackageError SymbolTable

namespace SymbolTable

def symbol (table : SymbolTable) (id : SymbolId) : Symbol :=
  table.symbols.getD id.index default

def package (table : SymbolTable) (id : PackageId) : Package :=
  table.packages.getD id.index default

def symbolName (table : SymbolTable) (id : SymbolId) : String := (table.symbol id).name

def packageName (table : SymbolTable) (id : PackageId) : String := (table.package id).name

def isKeyword (table : SymbolTable) (id : SymbolId) : Bool :=
  (table.symbol id).home == some PackageId.keyword

def symbolCount (table : SymbolTable) : Nat := table.symbols.size

def setCurrent (table : SymbolTable) (package : PackageId) : SymbolTable :=
  { table with current := package }

def updateSymbol (table : SymbolTable) (id : SymbolId) (f : Symbol → Symbol) : SymbolTable :=
  { table with symbols := table.symbols.modify id.index f }

def updatePackage (table : SymbolTable) (id : PackageId) (f : Package → Package) : SymbolTable :=
  { table with packages := table.packages.modify id.index f }

def setValue (table : SymbolTable) (id : SymbolId) (value : Option Value) : SymbolTable :=
  table.updateSymbol id fun symbol => { symbol with value }

def setFunction (table : SymbolTable) (id : SymbolId) (function : Option Value) : SymbolTable :=
  table.updateSymbol id fun symbol => { symbol with function }

def setPlist (table : SymbolTable) (id : SymbolId) (plist : Value) : SymbolTable :=
  table.updateSymbol id fun symbol => { symbol with plist }

/-- The package with the given name or nickname. -/
def findPackage? (table : SymbolTable) (name : String) : Option PackageId :=
  table.packageNames[name]?

def requirePackage (table : SymbolTable) (name : String) : Except PackageError PackageId :=
  match table.findPackage? name with
  | some id => .ok id
  | none => .error (.noSuchPackage name)

/-- A new package, entered under its name and its nicknames. -/
def registerPackage (table : SymbolTable) (package : Package) : PackageId × SymbolTable :=
  let id : PackageId := ⟨table.packages.size⟩
  (id, { table with
    packageNames := (package.name :: package.nicknames).foldl (·.insert · id) table.packageNames
    packages := table.packages.push package })

/-- Refuses a name that a package has. -/
def expectFree (name : String) : TableChange Unit := do
  if ((← get).findPackage? name).isSome then throw (.packageExists name)

/-- Adds a package unless one of its names is taken. -/
def addPackage (name : String) (nicknames : List String) (uses : List PackageId) :
    TableChange PackageId := do
  (name :: nicknames).forM expectFree
  modifyGet (·.registerPackage { name, nicknames, uses })

/-- The new package and the table with it. -/
def makePackage (table : SymbolTable) (name : String) (nicknames : List String)
    (uses : List PackageId) : Except PackageError (PackageId × SymbolTable) :=
  match addPackage name nicknames uses table with
  | .ok id later => .ok (id, later)
  | .error e _ => .error e

/-- Puts `used` at the end of the use list of `package`, unless it is there already. -/
def usePackage (table : SymbolTable) (package used : PackageId) : SymbolTable :=
  table.updatePackage package fun p =>
    if p.uses.contains used then p else { p with uses := p.uses ++ [used] }

/-- A package's own symbols come before those it inherits, and among the packages it uses the
first one that exports the name wins. -/
def findSymbol? (table : SymbolTable) (name : String) (package : PackageId) :
    Option (SymbolId × Visibility) :=
  let p := table.package package
  match p.internals.find? name with
  | some id => some (id, .internal)
  | none =>
      match p.externals.find? name with
      | some id => some (id, .exported)
      | none => (p.uses.findSome? fun used => (table.package used).findExternal? name).map
          (·, .inherited)

/-- A new symbol that belongs to no package. -/
def makeSymbol (table : SymbolTable) (name : String) : SymbolId × SymbolTable :=
  (⟨table.symbols.size⟩, { table with symbols := table.symbols.push { name, home := none } })

/-- A new uninterned symbol named after the prefix and a number not used before. -/
def gensym (table : SymbolTable) (stem : String) : SymbolId × SymbolTable :=
  let number := table.generated + 1
  { table with generated := number }.makeSymbol (stem ++ toString number)

/-- The symbol that `name` finds from `package`, made there if there is none; with it, how an
existing one was found. A new keyword is external and its own value. -/
def internWithStatus (table : SymbolTable) (name : String) (package : PackageId) :
    (SymbolId × Option Visibility) × SymbolTable :=
  match table.findSymbol? name package with
  | some (id, visibility) => ((id, some visibility), table)
  | none =>
      let id : SymbolId := ⟨table.symbols.size⟩
      if package = PackageId.keyword then
        let grown := { table with
          symbols := table.symbols.push { name, home := some package, value := some (.symbol id) } }
        ((id, none), grown.updatePackage package fun p =>
          { p with externals := p.externals.insert name id })
      else
        let grown := { table with
          symbols := table.symbols.push { name, home := some package } }
        ((id, none), grown.updatePackage package fun p =>
          { p with internals := p.internals.insert name id })

def intern (table : SymbolTable) (name : String) (package : PackageId) : SymbolId × SymbolTable :=
  let ((id, _), table) := table.internWithStatus name package
  (id, table)

def internKeyword (table : SymbolTable) (name : String) : SymbolId × SymbolTable :=
  table.intern name PackageId.keyword

/-- Moves a symbol to the external half of a package. -/
def promote (table : SymbolTable) (id : SymbolId) (package : PackageId) : SymbolTable :=
  let name := table.symbolName id
  table.updatePackage package fun p =>
    { p with internals := p.internals.erase name, externals := p.externals.insert name id }

/-- Interns in `COMMON-LISP` and exports. -/
def internStandard (table : SymbolTable) (name : String) : SymbolId × SymbolTable :=
  let (id, table) := table.intern name PackageId.commonLisp
  (id, table.promote id PackageId.commonLisp)

/-- Exports a symbol that the package can see under its name; an inherited one becomes the
package's own. -/
def exportFrom (id : SymbolId) (package : PackageId) : TableChange Unit := do
  let table ← get
  let name := table.symbolName id
  let hidden := PackageError.inaccessible name (table.packageName package)
  match table.findSymbol? name package with
  | some (found, _) => if found = id then set (table.promote id package) else throw hidden
  | none => throw hidden

/-- The table in which the symbol is exported. -/
def exportSymbol (table : SymbolTable) (id : SymbolId) (package : PackageId) :
    Except PackageError SymbolTable :=
  match exportFrom id package table with
  | .ok _ later => .ok later
  | .error e _ => .error e

/-- The standard packages before they have any symbols. -/
def bare : SymbolTable :=
  let table : SymbolTable := { symbols := #[], packages := #[], current := PackageId.commonLispUser }
  let (_, table) := table.registerPackage { name := "KEYWORD", nicknames := [] }
  let (_, table) := table.registerPackage { name := "COMMON-LISP", nicknames := ["CL"] }
  let (user, table) :=
    table.registerPackage { name := "COMMON-LISP-USER", nicknames := ["CL-USER"] }
  table.usePackage user PackageId.commonLisp

/-- The three standard packages, with `NIL` and `T` the first two symbols. -/
def initial : SymbolTable :=
  let (nil, table) := bare.internStandard "NIL"
  let (t, table) := table.internStandard "T"
  (table.setValue nil (some .nil)).setValue t (some .t)

end SymbolTable

end LispScript
