/-!
Values: the data that the reader produces, that compiled scripts compute with, and that the
compiler itself walks over as source forms.

Everything with an identity of its own lives in the heap and appears here as an address.
-/

namespace LispScript

/-- A symbol, by its place in the order of creation. -/
structure SymbolId where
  index : Nat
deriving DecidableEq, Repr, Inhabited

/-- A package, by its place in the order of creation. -/
structure PackageId where
  index : Nat
deriving DecidableEq, Repr, Inhabited

namespace SymbolId

/-- `NIL`, the first symbol of every table. -/
def nil : SymbolId := ⟨0⟩

/-- `T`, the second one. -/
def t : SymbolId := ⟨1⟩

end SymbolId

/-- The place of an object in its region of the heap. -/
abbrev Address := Nat

/-- The kinds of exit that unwind the stack on behalf of compiled code. -/
inductive TransferKind where
  | block
  | catching
  | tagbody
deriving DecidableEq, Repr

namespace TransferKind

def name : TransferKind → String
  | block => "block"
  | catching => "catch"
  | tagbody => "tagbody"

def ofName? : String → Option TransferKind
  | "block" => some block
  | "catch" => some catching
  | "tagbody" => some tagbody
  | _ => none

theorem ofName?_name (kind : TransferKind) : ofName? kind.name = some kind := by
  cases kind <;> rfl

end TransferKind

/-- A value. Strings never change, so they carry their text beside the address that tells two
equal ones apart. The last four kinds exist for scripts only and are never read from text. -/
inductive Value where
  | nil
  | number (value : Float)
  | character (value : Char)
  | string (address : Address) (text : String)
  | symbol (id : SymbolId)
  | cons (address : Address)
  | vector (address : Address)
  | function (address : Address)
  | package (id : PackageId)
  | bool (value : Bool)
  | undefined
  | bundle (address : Address)
  | transfer (address : Address)
deriving Repr, Inhabited

namespace Value

/-- The value a symbol stands for as data: `NIL` is the empty list. -/
def ofSymbol (id : SymbolId) : Value :=
  if id = SymbolId.nil then nil else symbol id

def t : Value := symbol SymbolId.t

/-- Truth as data. -/
def ofBool (b : Bool) : Value := if b then t else nil

/-- The symbol that a value designates, the empty list designating `NIL`. -/
def asSymbol? : Value → Option SymbolId
  | nil => some SymbolId.nil
  | symbol id => some id
  | _ => none

def isNil : Value → Bool
  | nil => true
  | _ => false

def isCons : Value → Bool
  | cons _ => true
  | _ => false

def isNumber : Value → Bool
  | number _ => true
  | _ => false

def isString : Value → Bool
  | string _ _ => true
  | _ => false

def isCharacter : Value → Bool
  | character _ => true
  | _ => false

def isFunction : Value → Bool
  | function _ => true
  | _ => false

def isVector : Value → Bool
  | vector _ => true
  | _ => false

/-- Identity; numbers and characters are compared by value. -/
def eql : Value → Value → Bool
  | nil, nil => true
  | undefined, undefined => true
  | number a, number b => a == b
  | character a, character b => a == b
  | bool a, bool b => a == b
  | symbol a, symbol b => a == b
  | package a, package b => a == b
  | string a _, string b _ => a == b
  | cons a, cons b => a == b
  | vector a, vector b => a == b
  | function a, function b => a == b
  | bundle a, bundle b => a == b
  | transfer a, transfer b => a == b
  | _, _ => false

/-- The comparison that scripts write with three signs: strings by content, all else by identity. -/
def strictEq : Value → Value → Bool
  | string _ a, string _ b => a == b
  | a, b => a.eql b

/-- Truth in a script's condition. The empty list is an object there, and so true. -/
def truthy : Value → Bool
  | bool b => b
  | undefined => false
  | number n => n != 0 && n == n
  | string _ text => !text.isEmpty
  | _ => true

def typeName : Value → String
  | nil => "NULL"
  | number _ => "NUMBER"
  | character _ => "CHARACTER"
  | string _ _ => "STRING"
  | symbol _ => "SYMBOL"
  | cons _ => "CONS"
  | vector _ => "VECTOR"
  | function _ => "FUNCTION"
  | package _ => "PACKAGE"
  | bool _ => "BOOLEAN"
  | undefined => "UNDEFINED"
  | bundle _ => "MULTIPLE-VALUES"
  | transfer _ => "TRANSFER"

theorem asSymbol?_ofSymbol (id : SymbolId) : (ofSymbol id).asSymbol? = some id := by
  unfold ofSymbol
  split <;> simp_all [asSymbol?]

end Value

end LispScript
