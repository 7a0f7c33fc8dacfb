import LispScript.Proofs.Quiet

/-!
What is known of a running image: the kind of value that each variable holds, and the part that each
vector plays. A world only ever grows, so what code was promised about the variables it can see stays
true for as long as closures of it are kept.
-/

namespace LispScript.Discipline

open Script

/-- What a variable holds, or what the value of an expression is. A `datum` is a value of the
language; `many` admits a bundle of them beside a lone one, and `optional` admits `undefined`. The
other kinds are private to scripts. -/
inductive Kind where
  | datum
  | many
  | optional
  | symbol
  | function
  | acceptor (manyValues : Bool)
  | block (manyValues : Bool)
  | tagbody
  | signal
  | arguments (count : Nat)
  | collector (manyValues : Bool)
deriving DecidableEq

namespace Kind

/-- What a callee hands to an acceptor, or what code gives that wants so many values. -/
def result (manyValues : Bool) : Kind := if manyValues then many else datum

/-- A variable of one of these kinds is never assigned to. -/
def IsFixed : Kind → Prop
  | datum => False
  | _ => True

/-- What tells the activations of a block or a tagbody apart. -/
def IsToken : Kind → Prop
  | block _ | tagbody => True
  | _ => False

end Kind

/-- What a vector serves as. The ones of the language are `lisp`; the others are the arguments of an
activation, the identity of a block or a tagbody, which one variable of one scope holds, and an
argument list under construction. -/
inductive Role where
  | lisp
  | arguments (count : Nat)
  | token (held : Kind) (owner : Nat) (name : String)
  | collector (manyValues : Bool)
  | other
deriving DecidableEq

/-- The kinds of the variables that can be used from a scope. -/
abbrev Layout := String → Option Kind

namespace Layout

/-- The layout with one more variable. -/
def bind (layout : Layout) (name : String) (kind : Kind) : Layout :=
  fun other => if other = name then some kind else layout other

@[simp] theorem bind_self (layout : Layout) (name : String) (kind : Kind) :
    layout.bind name kind name = some kind := if_pos rfl

theorem bind_of_ne (layout : Layout) {name other : String} (kind : Kind)
    (different : other ≠ name) :
    layout.bind name kind other = layout other := if_neg different

end Layout

structure World where
  scopes : List Layout
  vectors : List Role
  /-- How many function objects and transfers there are. -/
  functions : Nat
  transfers : Nat

/-- The functions of the support object come first; the others are the functions of the
language. -/
def firstFunction : Nat := Native.all.length

/-- The routine that takes in the values of a call. -/
def acceptorRoutine (manyValues : Bool) : Routine :=
  if manyValues then .packValues else .primaryValue

def acceptorValue (manyValues : Bool) : Value :=
  .function (Image.nativeAddress (.routine (acceptorRoutine manyValues)))

namespace World

variable (W : World)

/-- The values of the language: nothing that only scripts know, and never the symbol `NIL` in place
of the empty list. -/
def Datum : Value → Prop
  | .nil | .number _ | .character _ | .string _ _ | .cons _ | .package _ => True
  | .symbol id => id ≠ SymbolId.nil
  | .vector address => W.vectors[address]? = some .lisp
  | .function address => firstFunction ≤ address ∧ address < W.functions
  | .bool _ | .undefined | .bundle _ | .transfer _ => False

/-- A vector in the given role. -/
def IsVector (role : Role) (value : Value) : Prop :=
  ∃ address, value = .vector address ∧ W.vectors[address]? = some role

/-- The identity of an activation of some form. -/
def IsToken (held : Kind) (value : Value) : Prop :=
  ∃ owner name, W.IsVector (.token held owner name) value

/-- The values of a kind. -/
def Has : Kind → Value → Prop
  | .datum, value => W.Datum value
  | .many, value => W.Datum value ∨ ∃ address, value = .bundle address
  | .optional, value => W.Datum value ∨ value = .undefined
  | .symbol, value => W.Datum value ∧ value.asSymbol?.isSome
  | .function, value => W.Datum value ∧ value.isFunction
  | .acceptor manyValues, value => value = acceptorValue manyValues
  | .block manyValues, value => W.IsToken (.block manyValues) value
  | .tagbody, value => W.IsToken .tagbody value
  | .signal, value => ∃ address, value = .transfer address ∧ address < W.transfers
  | .arguments count, value => W.IsVector (.arguments count) value
  | .collector manyValues, value => W.IsVector (.collector manyValues) value

/-- One world is an earlier state of another. The scopes that it knows are as they were. -/
structure Extends (W W' : World) : Prop where
  scopes : W.scopes <+: W'.scopes
  vectors : W.vectors <+: W'.vectors
  functions : W.functions ≤ W'.functions
  transfers : W.transfers ≤ W'.transfers

/-- One world is an earlier state of another, in which scopes may have got further variables. -/
structure Grows (W W' : World) : Prop where
  scopes : ∀ (b : Nat) (layout : Layout), W.scopes[b]? = some layout →
    ∃ layout' : Layout, W'.scopes[b]? = some layout' ∧
      ∀ name kind, layout name = some kind → layout' name = some kind
  vectors : W.vectors <+: W'.vectors
  functions : W.functions ≤ W'.functions
  transfers : W.transfers ≤ W'.transfers

end World

section Growth

variable {W W' W'' : World}

theorem prefix_getElem? {items more : List α} (grown : items <+: more) {i : Nat} {item : α}
    (found : items[i]? = some item) :
    more[i]? = some item := by
  obtain ⟨rest, rfl⟩ := grown
  obtain ⟨bound, -⟩ := List.getElem?_eq_some_iff.mp found
  rw [List.getElem?_append_left bound]
  exact found

theorem World.Extends.refl (W : World) : W.Extends W :=
  ⟨List.prefix_refl _, List.prefix_refl _, Nat.le_refl _, Nat.le_refl _⟩

theorem World.Extends.trans (first : W.Extends W') (second : W'.Extends W'') : W.Extends W'' :=
  ⟨first.scopes.trans second.scopes, first.vectors.trans second.vectors,
    Nat.le_trans first.functions second.functions,
    Nat.le_trans first.transfers second.transfers⟩

theorem World.Extends.grows (extends_ : W.Extends W') : W.Grows W' :=
  ⟨fun _ layout found => ⟨layout, prefix_getElem? extends_.scopes found, fun _ _ known => known⟩,
    extends_.vectors, extends_.functions, extends_.transfers⟩

theorem World.Grows.refl (W : World) : W.Grows W := (World.Extends.refl W).grows

theorem World.Grows.trans (first : W.Grows W') (second : W'.Grows W'') : W.Grows W'' := by
  refine ⟨?_, first.vectors.trans second.vectors, Nat.le_trans first.functions second.functions,
    Nat.le_trans first.transfers second.transfers⟩
  intro b layout found
  obtain ⟨middle, foundMiddle, included⟩ := first.scopes b layout found
  obtain ⟨last, foundLast, includedLast⟩ := second.scopes b middle foundMiddle
  exact ⟨last, foundLast, fun name kind known => includedLast name kind (included name kind known)⟩

theorem World.Grows.datum (grows : W.Grows W') {value : Value} (datum : W.Datum value) :
    W'.Datum value := by
  cases value with
  | vector address => exact prefix_getElem? grows.vectors datum
  | function address => exact ⟨datum.1, Nat.lt_of_lt_of_le datum.2 grows.functions⟩
  | _ => exact datum

theorem World.Grows.isVector (grows : W.Grows W') {role : Role} {value : Value}
    (isVector : W.IsVector role value) :
    W'.IsVector role value := by
  obtain ⟨address, rfl, found⟩ := isVector
  exact ⟨address, rfl, prefix_getElem? grows.vectors found⟩

theorem World.Grows.isToken (grows : W.Grows W') {held : Kind} {value : Value}
    (token : W.IsToken held value) :
    W'.IsToken held value := by
  obtain ⟨owner, name, isVector⟩ := token
  exact ⟨owner, name, grows.isVector isVector⟩

/-- Nothing loses its kind. -/
theorem World.Grows.has (grows : W.Grows W') {kind : Kind} {value : Value}
    (has : W.Has kind value) :
    W'.Has kind value := by
  cases kind with
  | datum => exact grows.datum has
  | many => exact has.imp_left grows.datum
  | optional => exact has.imp_left grows.datum
  | symbol => exact ⟨grows.datum has.1, has.2⟩
  | function => exact ⟨grows.datum has.1, has.2⟩
  | acceptor manyValues => exact has
  | signal =>
      obtain ⟨address, rfl, bound⟩ := has
      exact ⟨address, rfl, Nat.lt_of_lt_of_le bound grows.transfers⟩
  | block manyValues => exact grows.isToken has
  | tagbody => exact grows.isToken has
  | arguments count => exact grows.isVector has
  | collector manyValues => exact grows.isVector has

end Growth

section Kinds

variable {W : World} {value : Value}

/-- Every value of one kind is one of another. -/
def Kind.Within (kind wider : Kind) : Prop := ∀ W value, World.Has W kind value → W.Has wider value

theorem Kind.Within.refl (kind : Kind) : kind.Within kind := fun _ _ has => has

theorem Kind.symbol_within_datum : Kind.symbol.Within .datum := fun _ _ has => has.1

theorem Kind.function_within_datum : Kind.function.Within .datum := fun _ _ has => has.1

theorem Kind.datum_within_optional : Kind.datum.Within .optional := fun _ _ has => .inl has

theorem Kind.datum_within_result (manyValues : Bool) :
    Kind.datum.Within (.result manyValues) := by
  intro W value has
  cases manyValues with
  | true => exact .inl has
  | false => exact has

theorem Kind.result_within_many (manyValues : Bool) :
    (Kind.result manyValues).Within .many := by
  intro W value has
  cases manyValues with
  | true => exact has
  | false => exact .inl has

theorem World.datum_ofSymbol (id : SymbolId) : W.Datum (.ofSymbol id) := by
  unfold Value.ofSymbol
  split
  · trivial
  · assumption

theorem World.datum_ofBool (b : Bool) : W.Datum (.ofBool b) := by
  cases b
  · trivial
  · exact show SymbolId.t ≠ SymbolId.nil by decide

theorem World.symbol_ofSymbol (id : SymbolId) : W.Has .symbol (.ofSymbol id) :=
  ⟨W.datum_ofSymbol id, by simp [Value.asSymbol?_ofSymbol]⟩

end Kinds

end LispScript.Discipline
