import LispScript.Compiler.Lambda
import LispScript.Proofs.Forms

/-!
What lambda lists say about arguments: which ones they refuse, and what their variables get. Keyword
arguments stand in pairs behind the positional ones, and the leftmost pair for a keyword counts.
-/

namespace LispScript.Compiler

open Machine

section Pairs

/-- Keyword arguments, two by two. -/
def pairs : List Value → List (Value × Value)
  | key :: value :: rest => (key, value) :: pairs rest
  | _ => []

/-- The argument for a keyword. -/
def argumentFor? (keyword : SymbolId) (rest : List Value) : Option Value :=
  ((pairs rest).find? (·.1.strictEq (.ofSymbol keyword))).map Prod.snd

variable {rest : List Value}

theorem pairs_length (rest : List Value) : (pairs rest).length = rest.length / 2 := by
  induction rest using pairs.induct with
  | case1 key value rest ih => simp [pairs, ih]; omega
  | case2 rest short =>
      match rest with
      | [] => rfl
      | [_] => simp [pairs]
      | key :: value :: rest => exact absurd rfl (short key value rest)

/-- A pair stands where its number says. -/
theorem pairs_getElem? {k : Nat} {pair : Value × Value} (found : (pairs rest)[k]? = some pair) :
    rest[2 * k]? = some pair.1 ∧ rest[2 * k + 1]? = some pair.2 := by
  induction rest using pairs.induct generalizing k with
  | case1 key value rest ih =>
      cases k with
      | zero =>
          obtain rfl : (key, value) = pair := by simpa [pairs] using found
          exact ⟨rfl, rfl⟩
      | succ k => simpa [pairs, Nat.mul_add] using ih (by simpa [pairs] using found)
  | case2 rest short =>
      have none_ : pairs rest = [] := by
        match rest with
        | [] => rfl
        | [_] => rfl
        | key :: value :: rest => exact absurd rfl (short key value rest)
      simp [none_] at found

end Pairs

section Refusals

/-- Why arguments do not fit a lambda list. -/
inductive Refusal where
  | arity
  | oddKeywords
  | unknownKeyword (keyword : Value)
deriving Repr

/-- A number of arguments as scripts show it. -/
def countText (n : Nat) : String := toString (Number.toCount (Float.ofNat n))

namespace LambdaList

variable (list : LambdaList)

/-- The number of parameters that take an argument by its place. -/
def positional : Nat := list.required.length + list.optional.length

def allows (count : Nat) : Bool :=
  decide (list.required.length ≤ count) && (list.isVariadic || decide (count ≤ list.positional))

/-- What is said to be expected instead of a number of arguments that is not allowed. -/
def expected (count : Nat) : String :=
  if list.optional = [] && !list.isVariadic then countText list.required.length
  else if count < list.required.length then "at least " ++ countText list.required.length
  else "at most " ++ countText list.positional

/-- Whether keywords that are not declared are let pass. -/
def waives (rest : List Value) : Bool :=
  list.allowOtherKeys || match argumentFor? SymbolId.allowOtherKeysKey rest with
    | some value => !value.isNil
    | none => false

def knows (key : Value) : Bool :=
  (list.keys.map (·.keyword) ++ [SymbolId.allowOtherKeysKey]).any
    fun keyword => key.strictEq (.ofSymbol keyword)

/-- Why keyword arguments are refused, unless they are taken. -/
def keyRefusal? (rest : List Value) : Option Refusal :=
  if rest.length % 2 = 1 then some .oddKeywords
  else if list.waives rest then none
  else ((pairs rest).find? (!list.knows ·.1)).map fun pair => .unknownKeyword pair.1

/-- Why a lambda list refuses arguments, unless it takes them. -/
def refusal? (args : List Value) : Option Refusal :=
  if !list.allows args.length then some .arity
  else if list.hasKeys then list.keyRefusal? (args.drop list.positional)
  else none

/-- The failure of a call with so many arguments. -/
def failure (count : Nat) (print : Value → String) : Refusal → RuntimeError
  | .arity => .arity (list.expected count) count
  | .oddKeywords => .oddKeywords
  | .unknownKeyword keyword => .unknownKeyword (print keyword)

end LambdaList

end Refusals

section Defaults

/-- A default form that is a variable or a literal. -/
inductive DefaultForm where
  | reference (id : SymbolId)
  | literal (datum : Value)

/-- The datum of a quotation. -/
def quoted? (heap : Heap) (address : Address) : Option Value :=
  match heap.cells[address]? with
  | some ⟨.symbol id, .cons next⟩ =>
      match heap.cells[next]? with
      | some ⟨datum, .nil⟩ => if id = SpecialForm.quote.symbol then some datum else none
      | _ => none
  | _ => none

theorem quoted?_eq_some {heap : Heap} {address : Address} {datum : Value} :
    quoted? heap address = some datum ↔ ∃ next,
      heap.cells[address]? = some ⟨.symbol SpecialForm.quote.symbol, .cons next⟩ ∧
      heap.cells[next]? = some ⟨datum, .nil⟩ := by
  constructor
  · intro found
    unfold quoted? at found
    split at found
    · rename_i id next first
      split at found
      · rename_i other second
        split at found
        · rename_i same
          cases found
          exact ⟨next, same ▸ first, second⟩
        · cases found
      · cases found
    · cases found
  · rintro ⟨next, first, second⟩
    unfold quoted?
    simp only [first, second, if_true]

/-- What a default form is, if it is a variable or a literal, that is, an atom or a quotation. -/
def defaultForm? (image : Image) : Value → Option DefaultForm
  | .symbol id =>
      if id = SymbolId.t || image.symbols.isKeyword id then some (.literal (.symbol id))
      else some (.reference id)
  | .cons address => (quoted? image.heap address).map .literal
  | atom => some (.literal atom)

theorem defaultForm?_variable {image : Image} {id : SymbolId} (notT : id ≠ SymbolId.t)
    (notKeyword : image.symbols.isKeyword id = false) :
    defaultForm? image (.symbol id) = some (.reference id) := by
  simp [defaultForm?, notT, notKeyword]

/-- The value that a unit has for a literal: what it made for a list or vector, a new string for a
string, and otherwise the datum itself. -/
def LiteralValue (made : LiteralKey → Value) : Value → Value → Prop
  | .string _ text, value => ∃ address, value = .string address text
  | .cons address, value => value = made (.cons address)
  | .vector address, value => value = made (.vector address)
  | .symbol id, value => value = .ofSymbol id
  | datum, value => value = datum

/-- The value of a default form where the variables have the values that `gives` tells. -/
def DefaultForm.Has (made : LiteralKey → Value) (gives : SymbolId → Value → Prop) :
    DefaultForm → Value → Prop
  | .reference id, value => gives id value
  | .literal datum, value => LiteralValue made datum value

/-- A default form has a value. -/
def DefaultHas (image : Image) (made : LiteralKey → Value) (gives : SymbolId → Value → Prop)
    (form value : Value) : Prop :=
  ∃ read, defaultForm? image form = some read ∧ read.Has made gives value

/-- A form that is a literal or one of the variables to its left. -/
def IsSimple (image : Image) (left : List SymbolId) (form : Value) : Prop :=
  ∃ read, defaultForm? image form = some read ∧ ∀ id, read = .reference id → id ∈ left

/-- The variable of an optional parameter, and its flag. -/
def OptionalParam.vars (param : OptionalParam) : List SymbolId := param.var :: param.supplied.toList

/-- The variable of a keyword parameter, and its flag. -/
def KeyParam.vars (param : KeyParam) : List SymbolId := param.var :: param.supplied.toList

/-- All default forms are literals or variables to their left. -/
structure LambdaList.HasSimpleDefaults (list : LambdaList) (image : Image) : Prop where
  optional : ∀ before param after, list.optional = before ++ param :: after →
    IsSimple image (list.required ++ before.flatMap OptionalParam.vars) param.default
  key : ∀ before param after, list.keys = before ++ param :: after →
    IsSimple image (list.required ++ list.optional.flatMap OptionalParam.vars ++ list.rest.toList ++
      before.flatMap KeyParam.vars) param.default

end Defaults

section Receiving

/-- A list of the items all of whose conses are new. -/
def IsFreshList (before later : Heap) : Value → List Value → Prop
  | value, [] => value = .nil
  | value, item :: items => ∃ a, value = .cons a ∧ before.cells.size ≤ a ∧ a < later.cells.size ∧
      (later.cell a).car = item ∧ IsFreshList before later (later.cell a).cdr items

/-- The variables of a lambda list have got their values. -/
structure LambdaList.Receives (list : LambdaList) (args : List Value)
    (has : Value → Value → Prop) (before later : Heap) (gives : SymbolId → Value → Prop) : Prop where
  required : ∀ (i : Nat) var, list.required[i]? = some var →
    ∃ arg, args[i]? = some arg ∧ gives var arg
  given : ∀ (i : Nat) param arg, list.optional[i]? = some param →
    args[list.required.length + i]? = some arg → gives param.var arg
  missing : ∀ (i : Nat) param, list.optional[i]? = some param → args.length ≤ list.required.length + i →
    ∃ value, has param.default value ∧ gives param.var value
  givenFlag : ∀ (i : Nat) param flag, list.optional[i]? = some param → param.supplied = some flag →
    gives flag (.ofBool (decide (list.required.length + i < args.length)))
  rest : ∀ var, list.rest = some var →
    ∃ value, IsFreshList before later value (args.drop list.positional) ∧ gives var value
  key : ∀ param ∈ list.keys, ∀ arg,
    argumentFor? param.keyword (args.drop list.positional) = some arg → gives param.var arg
  keyDefault : ∀ param ∈ list.keys,
    argumentFor? param.keyword (args.drop list.positional) = none →
      ∃ value, has param.default value ∧ gives param.var value
  keyFlag : ∀ param ∈ list.keys, ∀ flag, param.supplied = some flag →
    gives flag (.ofBool (argumentFor? param.keyword (args.drop list.positional)).isSome)

/-- Defaults have the values that they had in an image in which they were read the same. -/
theorem LambdaList.Receives.sameDefaults {list : LambdaList} {args : List Value} {image later : Image}
    {made : LiteralKey → Value} {before after : Heap} {gives gives' : SymbolId → Value → Prop}
    (receives : list.Receives args (DefaultHas later made gives) before after gives')
    (simple : list.HasSimpleDefaults image)
    (same : ∀ {form read}, defaultForm? image form = some read → defaultForm? later form = some read) :
    list.Receives args (DefaultHas image made gives) before after gives' := by
  have earlier : ∀ {left form value}, IsSimple image left form →
      DefaultHas later made gives form value → DefaultHas image made gives form value := by
    rintro left form value ⟨read, reads, -⟩ ⟨again, readsAgain, has⟩
    obtain rfl := Option.some.inj ((same reads).symm.trans readsAgain)
    exact ⟨read, reads, has⟩
  refine { receives with missing := fun i param found absent => ?_, keyDefault := ?_ }
  · obtain ⟨value, has, gives⟩ := receives.missing i param found absent
    obtain ⟨before, after, split⟩ := List.append_of_mem (List.mem_of_getElem? found)
    exact ⟨value, earlier (simple.optional before param after split) has, gives⟩
  · intro param member absent
    obtain ⟨value, has, gives⟩ := receives.keyDefault param member absent
    obtain ⟨before, after, split⟩ := List.append_of_mem member
    exact ⟨value, earlier (simple.key before param after split) has, gives⟩

end Receiving

end LispScript.Compiler
