import LispScript.Value
import Std.Data.TreeMap

/-!
Symbols and the packages that name them.
-/

namespace LispScript

/-- A symbol: its name, its home package unless it is uninterned, and its global slots. -/
structure Symbol where
  name : String
  home : Option PackageId
  value : Option Value := none
  function : Option Value := none
  plist : Value := .nil
deriving Repr, Inhabited

/-- How a name gives access to a symbol from within a package. -/
inductive Visibility where
  | internal
  | exported
  | inherited
deriving DecidableEq, Repr

def Visibility.name : Visibility → String
  | internal => "INTERNAL"
  | exported => "EXTERNAL"
  | inherited => "INHERITED"

/-- A finite map from names to symbols. -/
structure NameTable where
  entries : Std.TreeMap String SymbolId compare := {}
deriving Repr, Inhabited

namespace NameTable

def find? (table : NameTable) (name : String) : Option SymbolId := table.entries[name]?

/-- Nothing is done where the name has no symbol. -/
def erase (table : NameTable) (name : String) : NameTable :=
  if table.find? name = none then table else ⟨table.entries.erase name⟩

/-- Nothing is done where the name has the symbol already. -/
def insert (table : NameTable) (name : String) (id : SymbolId) : NameTable :=
  if table.find? name = some id then table else ⟨table.entries.insert name id⟩

/-- The symbols, in the order of their names. -/
def symbols (table : NameTable) : List SymbolId := table.entries.values

variable {table : NameTable} {name other : String} {id : SymbolId}

@[simp] theorem find?_empty : ({} : NameTable).find? name = none := by simp [find?]

theorem erase_of_absent (absent : table.find? name = none) : table.erase name = table :=
  if_pos absent

theorem insert_of_present (present : table.find? name = some id) : table.insert name id = table :=
  if_pos present

@[simp] theorem find?_erase_self : (table.erase name).find? name = none := by
  by_cases absent : table.find? name = none
  · rw [erase_of_absent absent, absent]
  · rw [erase, if_neg absent]
    simp [find?]

theorem find?_erase_of_ne (different : other ≠ name) :
    (table.erase name).find? other = table.find? other := by
  rw [erase]
  split
  · rfl
  · simp [find?, Std.TreeMap.getElem?_erase, Ne.symm different]

@[simp] theorem find?_insert_self : (table.insert name id).find? name = some id := by
  by_cases present : table.find? name = some id
  · rw [insert_of_present present, present]
  · rw [insert, if_neg present]
    simp [find?]

theorem find?_insert_of_ne (different : other ≠ name) :
    (table.insert name id).find? other = table.find? other := by
  rw [insert]
  split
  · rfl
  · simp [find?, Std.TreeMap.getElem?_insert, Ne.symm different]

end NameTable

/-- A package: the symbols of its own, internal and external, and the packages it uses, in
order. -/
structure Package where
  name : String
  nicknames : List String
  internals : NameTable := {}
  externals : NameTable := {}
  uses : List PackageId := []
deriving Repr, Inhabited

namespace Package

def isNamed (package : Package) (name : String) : Bool :=
  package.name == name || package.nicknames.contains name

def findExternal? (package : Package) (name : String) : Option SymbolId :=
  package.externals.find? name

end Package

end LispScript
