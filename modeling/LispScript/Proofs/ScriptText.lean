import Mathlib
import LispScript.Image
import LispScript.Proofs.Names
import LispScript.Proofs.Numeral
import LispScript.Proofs.SignedZero
import LispScript.Script.Render

/-!
The text of scripts, read back. The scanner here takes the trees out of their text again, apart from
how a number gets its sign; it makes nothing of the spaces at the head of a line.
-/

namespace LispScript.Number

open Float.Model

section Signs

variable {x : Float}

theorem isPositive_neg_ofNat {n : Nat} (small : n < exactLimit) :
    isPositive (-(Float.ofNat n)).toModel.unpack = false := by
  rw [ofNat_eq_pack small]
  change isPositive (Float.Model.pack (Float.Model.pack (unpackedCount n)).unpack.neg).unpack = false
  refine unpack_pack_not_positive ?_
  rw [unpack_pack_count small, unpackedCount]
  split <;> rfl

/-- A whole number other than zero with a sign is below zero. -/
theorem IsShortWhole.lt_zero_iff (short : IsShortWhole x) :
    x < 0 ↔ (isNegative x && (Binary.ofFloat x).significand ≠ 0) = true := by
  have small : (Binary.ofFloat x).truncate < exactLimit := Nat.lt_trans short.2 (by decide)
  have count := short.eq_count
  by_cases negative : isNegative x = true
  · rw [if_pos negative] at count
    have low : isPositive x.toModel.unpack = false := by
      rw [count]
      exact isPositive_neg_ofNat small
    have packed := ofModel_unpack x
    have finite : isFinite x = true := (Bool.and_eq_true_iff.mp short.1).1
    rw [lt_iff_compare, unpack_zero]
    simp only [negative, Bool.true_and, decide_eq_true_eq]
    cases unpacked : x.toModel.unpack with
    | notANumber =>
        rw [unpacked] at packed
        rw [← packed] at finite
        exact absurd finite (by decide +kernel)
    | infinity sign =>
        rw [unpacked] at packed
        rw [← packed] at finite
        exact absurd finite (by cases sign <;> decide +kernel)
    | zero sign =>
        rw [unpacked] at packed
        have zero : (Binary.ofFloat x).significand = 0 := by
          rw [← packed]
          cases sign <;> decide +kernel
        simp [UnpackedFloat.compare, zero]
    | finite sign significand exponent positive =>
        rw [unpacked] at low
        cases sign with
        | positive => cases low
        | negative =>
            refine iff_of_true (by simp [UnpackedFloat.compare]) fun zero => ?_
            have below : x < 0 := by simp [lt_iff_compare, unpacked, unpack_zero, UnpackedFloat.compare]
            rw [count, truncate_eq_zero zero] at below
            exact absurd below (by decide +kernel)
  · rw [if_neg negative] at count
    have above : ¬ x < 0 := by
      rw [count]
      exact fun below => Nat.not_lt_zero _ ((ofNat_lt_iff (b := 0) small).mp below)
    simp [negative, above]

end Signs
end LispScript.Number

namespace LispScript.Script

open Compiler

section Fragment

/-- Letters, digits, `_` and `$`; every character beyond ASCII counts as one. -/
def isWordChar (c : Char) : Bool := c.isAlphanum || c == '_' || c == '$' || 128 ≤ c.toNat

/-- A name that a property can have. -/
structure IsWord (name : String) : Prop where
  nonempty : name ≠ ""
  plain : ∀ c ∈ name.toList, isWordChar c = true

/-- The names that scripts give to variables and labels. -/
inductive IsScriptName : String → Prop where
  | variable_ (counters : Compiler.Counters) (hint : String) :
      IsScriptName (counters.freshVariable hint).1
  | literal (counters : Compiler.Counters) : IsScriptName counters.freshLiteral.1
  | block (counters : Compiler.Counters) : IsScriptName counters.freshBlock.1
  | token (counters : Compiler.Counters) : IsScriptName counters.freshTagbody.1.1
  | label (counters : Compiler.Counters) : IsScriptName counters.freshTagbody.1.2
  | reserved (member : name ∈ Discipline.reservedNames) : IsScriptName name

namespace Expr

def isNumber : Expr → Bool
  | number _ => true
  | _ => false

def isFunction : Expr → Bool
  | function _ _ => true
  | _ => false

def isComma : Expr → Bool
  | comma _ => true
  | _ => false

/-- What can be assigned to. -/
def isPlace : Expr → Bool
  | ident _ | member _ _ | index _ _ => true
  | _ => false

end Expr

mutual

/-- Trees whose texts tell them apart. Their numbers are short whole ones, none of which has members
or is called, and a list with commas has two items at least and no function literal in front. -/
def Expr.IsPlain : Expr → Prop
  | .number n => Number.IsShortWhole n
  | .string _ | .bool _ | .undefined => True
  | .ident name => IsScriptName name
  | .support member => (Image.support? member).isSome
  | .member object property => object.isNumber = false ∧ object.IsPlain ∧ IsWord property
  | .index object position => object.isNumber = false ∧ object.IsPlain ∧ position.IsPlain
  | .call callee args => callee.isNumber = false ∧ callee.IsPlain ∧ Expr.ArePlain args
  | .function params body => (∀ param ∈ params, IsScriptName param) ∧ Stmt.ArePlain body
  | .array items => Expr.ArePlain items
  | .binary _ left right => left.IsPlain ∧ right.IsPlain
  | .unary _ operand => operand.IsPlain
  | .cond test yes no => test.IsPlain ∧ yes.IsPlain ∧ no.IsPlain
  | .assign target value => target.isPlace = true ∧ target.IsPlain ∧ value.IsPlain
  | .comma items =>
      2 ≤ items.length ∧ (∀ first ∈ items.head?, first.isFunction = false) ∧ Expr.ArePlain items

def Expr.ArePlain : List Expr → Prop
  | [] => True
  | item :: rest => item.IsPlain ∧ Expr.ArePlain rest

def Stmt.IsPlain : Stmt → Prop
  | .declare name => IsScriptName name
  | .define name value => IsScriptName name ∧ value.IsPlain
  | .effect value | .ret value | .raise value => value.IsPlain
  | .branch test yes no => test.IsPlain ∧ Stmt.ArePlain yes ∧ Stmt.ArePlain no
  | .loop label test body =>
      (∀ name ∈ label, IsScriptName name) ∧ test.IsPlain ∧ Stmt.ArePlain body
  | .iterate start test update body =>
      start.IsPlain ∧ test.IsPlain ∧ update.IsPlain ∧ Stmt.ArePlain body
  | .select subject cases => subject.IsPlain ∧ Case.ArePlain cases
  | .leave label => ∀ name ∈ label, IsScriptName name
  | .guarded block handler cleanup => Stmt.ArePlain block ∧ handler.IsPlain ∧ cleanup.IsPlain

def Stmt.ArePlain : List Stmt → Prop
  | [] => True
  | stmt :: rest => stmt.IsPlain ∧ Stmt.ArePlain rest

def Case.IsPlain : Case → Prop
  | .case test body => test.IsPlain ∧ Stmt.ArePlain body
  | .otherwise body => Stmt.ArePlain body

def Case.ArePlain : List Case → Prop
  | [] => True
  | case :: rest => case.IsPlain ∧ Case.ArePlain rest

def Handler.IsPlain : Handler → Prop
  | .none => True
  | .catching param body => IsScriptName param ∧ Stmt.ArePlain body

def Cleanup.IsPlain : Cleanup → Prop
  | .none => True
  | .always body => Stmt.ArePlain body

end

/-- A whole number without its sign. -/
def wholeMagnitude (n : Float) : Float := Float.ofNat (Number.Binary.ofFloat n).truncate

mutual

/-- The tree with the sign of every negative number as an operator, and with no sign at a zero. -/
def Expr.canonical : Expr → Expr
  | .number n =>
      if n < 0 then .unary .neg (.number (wholeMagnitude n)) else .number (wholeMagnitude n)
  | .string text => .string text
  | .bool b => .bool b
  | .undefined => .undefined
  | .ident name => .ident name
  | .support member => .support member
  | .member object property => .member object.canonical property
  | .index object position => .index object.canonical position.canonical
  | .call callee args => .call callee.canonical (Expr.canonicalAll args)
  | .function params body => .function params (Stmt.canonicalAll body)
  | .array items => .array (Expr.canonicalAll items)
  | .binary op left right => .binary op left.canonical right.canonical
  | .unary op operand => .unary op operand.canonical
  | .cond test yes no => .cond test.canonical yes.canonical no.canonical
  | .assign target value => .assign target.canonical value.canonical
  | .comma items => .comma (Expr.canonicalAll items)

def Expr.canonicalAll : List Expr → List Expr
  | [] => []
  | item :: rest => item.canonical :: Expr.canonicalAll rest

def Stmt.canonical : Stmt → Stmt
  | .declare name => .declare name
  | .define name value => .define name value.canonical
  | .effect value => .effect value.canonical
  | .ret value => .ret value.canonical
  | .branch test yes no => .branch test.canonical (Stmt.canonicalAll yes) (Stmt.canonicalAll no)
  | .loop label test body => .loop label test.canonical (Stmt.canonicalAll body)
  | .iterate start test update body =>
      .iterate start.canonical test.canonical update.canonical (Stmt.canonicalAll body)
  | .select subject cases => .select subject.canonical (Case.canonicalAll cases)
  | .leave label => .leave label
  | .raise value => .raise value.canonical
  | .guarded block handler cleanup =>
      .guarded (Stmt.canonicalAll block) handler.canonical cleanup.canonical

def Stmt.canonicalAll : List Stmt → List Stmt
  | [] => []
  | stmt :: rest => stmt.canonical :: Stmt.canonicalAll rest

def Case.canonical : Case → Case
  | .case test body => .case test.canonical (Stmt.canonicalAll body)
  | .otherwise body => .otherwise (Stmt.canonicalAll body)

def Case.canonicalAll : List Case → List Case
  | [] => []
  | case :: rest => case.canonical :: Case.canonicalAll rest

def Handler.canonical : Handler → Handler
  | .none => .none
  | .catching param body => .catching param (Stmt.canonicalAll body)

def Cleanup.canonical : Cleanup → Cleanup
  | .none => .none
  | .always body => .always (Stmt.canonicalAll body)

end

end Fragment

section Names

/-- Words that begin what is no expression, and the one that begins a function literal. -/
def keywords : List String :=
  ["function", "var", "return", "throw", "break", "if", "while", "for", "switch", "try", "case",
    "default"]

/-- Words that are not names in scripts. -/
def reservedWords : List String := ["true", "false", "undefined", "internals"] ++ keywords

/-- A word that can be a name. -/
structure IsName (name : String) : Prop extends IsWord name where
  noDigit : ∀ c ∈ name.toList.head?, c.isDigit = false
  unreserved : name ∉ reservedWords

theorem isWordChar_of_isAlphanum {c : Char} (plain : c.isAlphanum = true) : isWordChar c = true := by
  simp [isWordChar, plain]

theorem isWordChar_of_isDigit {c : Char} (digit : c.isDigit = true) : isWordChar c = true :=
  isWordChar_of_isAlphanum (by simp [Char.isAlphanum, digit])

theorem toLower_of_isUpper {c : Char} (capital : c.isUpper = true) :
    c.toLower.isAlpha = true ∧ c.toLower.isDigit = false := by
  rw [Char.isUpper, decide_eq_true_eq, ge_iff_le, UInt32.le_iff_toNat_le, UInt32.le_iff_toNat_le]
    at capital
  have lower : 65 ≤ c.toNat := capital.1
  have upper : c.toNat ≤ 90 := capital.2
  rw [← Char.ofNat_toNat c]
  interval_cases c.toNat <;> decide

theorem toLower_word {c : Char} (plain : c.isAlphanum = true) :
    isWordChar c.toLower = true ∧ (c.isDigit = false → c.toLower.isDigit = false) := by
  by_cases capital : c.isUpper = true
  · obtain ⟨letter, noDigit⟩ := toLower_of_isUpper capital
    exact ⟨isWordChar_of_isAlphanum (by simp [Char.isAlphanum, letter]), fun _ => noDigit⟩
  · have same : c.toLower = c := by
      rw [Char.isUpper, decide_eq_true_eq] at capital
      rw [Char.toLower, dif_neg capital]
    rw [same]
    exact ⟨isWordChar_of_isAlphanum plain, id⟩

/-- Stems of variables can stand in front of a name. -/
theorem identifierStem_word (hint : String) :
    (∀ c ∈ (identifierStem hint).toList, isWordChar c = true) ∧
      ∀ c ∈ (identifierStem hint).toList.head?, c.isDigit = false := by
  have written : ∀ c : Char, isWordChar (if c.isAlphanum then c.toLower else '_') = true := by
    intro c
    split
    · exact (toLower_word ‹_›).1
    · rfl
  have all : ∀ d ∈ hint.toList.map fun c => if c.isAlphanum then c.toLower else '_',
      isWordChar d = true := by simpa using fun c _ => written c
  rw [identifierStem]
  generalize hint.toList.map (fun c => if c.isAlphanum then c.toLower else '_') = stem at all
  cases stem with
  | nil => simp [isWordChar]
  | cons c cs =>
      simp only [String.toList_ofList]
      split
      · refine ⟨List.forall_mem_cons.mpr ⟨rfl, all⟩, ?_⟩
        rintro _ ⟨⟩
        rfl
      · rename_i noDigit
        refine ⟨all, ?_⟩
        rintro _ ⟨⟩
        exact Bool.eq_false_iff.mpr noDigit

theorem reservedWords_digitless :
    ∀ name ∈ reservedWords, ∀ c ∈ name.toList, c.isDigit = false := by
  have checked : (reservedWords.all fun name => name.toList.all fun c => !c.isDigit) = true := by
    decide
  intro name member c inside
  simpa using List.all_eq_true.mp (List.all_eq_true.mp checked name member) c inside

/-- A name with a number at its end. -/
theorem IsName.numbered {stem : String} {c : Char} {cs : List Char} (spelled : stem.toList = c :: cs)
    (word : ∀ d ∈ stem.toList, isWordChar d = true) (noDigit : c.isDigit = false) (n : Nat) :
    IsName (stem ++ toString n) where
  nonempty := by
    intro empty
    have := congrArg String.toList empty
    rw [String.toList_append, spelled] at this
    cases this
  plain := by
    intro d member
    rw [String.toList_append] at member
    rcases List.mem_append.mp member with inside | inside
    · exact word d inside
    · rw [Nat.toString_eq_repr, Nat.toList_repr] at inside
      exact isWordChar_of_isDigit (Nat.isDigit_of_mem_toDigits (by decide) (by decide) inside)
  noDigit := by
    rw [String.toList_append, spelled]
    rintro _ ⟨⟩
    exact noDigit
  unreserved := by
    intro reserved
    obtain ⟨d, member, digit⟩ := digit_mem n
    have inside : d ∈ (stem ++ toString n).toList := by
      rw [String.toList_append]
      exact List.mem_append_right _ member
    rw [reservedWords_digitless _ reserved d inside] at digit
    contradiction

theorem IsScriptName.isName {name : String} (known : IsScriptName name) : IsName name := by
  cases known with
  | variable_ counters hint =>
      obtain ⟨word, noDigit⟩ := identifierStem_word hint
      obtain ⟨c, cs, spelled⟩ := List.exists_cons_of_ne_nil (l := (identifierStem hint ++ "_").toList)
        (by simp)
      refine IsName.numbered spelled (fun d member => ?_) ?_ _
      · rw [String.toList_append] at member
        rcases List.mem_append.mp member with inside | inside
        · exact word d inside
        · rw [List.mem_singleton.mp inside]
          rfl
      · rw [String.toList_append] at spelled
        cases stem : (identifierStem hint).toList with
        | nil =>
            rw [stem] at spelled
            cases spelled
            decide
        | cons d ds =>
            rw [stem] at spelled noDigit
            cases spelled
            exact noDigit _ rfl
  | literal counters => exact .numbered (show "l".toList = _ from rfl) (by simp [isWordChar]) (by decide) _
  | block counters => exact .numbered (show "b".toList = _ from rfl) (by simp [isWordChar]) (by decide) _
  | token counters => exact .numbered (show "tb".toList = _ from rfl) (by simp [isWordChar]) (by decide) _
  | label counters => exact .numbered (show "tbloop".toList = _ from rfl) (by simp [isWordChar]) (by decide) _
  | reserved member =>
      have checked : ∀ name ∈ Discipline.reservedNames, (name ≠ "" ∧
          name.toList.all isWordChar = true) ∧ name.toList.all (!·.isDigit) = true ∧
          name ∉ reservedWords := by decide +kernel
      obtain ⟨⟨nonempty, word⟩, noDigit, unreserved⟩ := checked name member
      refine ⟨⟨nonempty, List.all_eq_true.mp word⟩, fun c first => ?_, unreserved⟩
      simpa using List.all_eq_true.mp noDigit c (List.mem_of_mem_head? first)

/-- What the support object has is found under its name, which is a word. -/
theorem Support.word_of_present {member : Support} (present : (Image.support? member).isSome) :
    IsWord member.name ∧ Support.ofName member.name = member := by
  have checked : ∀ n ∈ Native.all, (n.name ≠ "" ∧ n.name.toList.all isWordChar = true) ∧
      Support.ofName n.name = .native n := by decide +kernel
  cases member with
  | nil => exact ⟨⟨by decide, by simp [Support.name, isWordChar]⟩, rfl⟩
  | t => exact ⟨⟨by decide, by simp [Support.name, isWordChar]⟩, rfl⟩
  | native n =>
      have member : n ∈ Native.all := by
        cases n with
        | routine r => exact List.mem_append_left _ (List.mem_map_of_mem (by cases r <;> decide))
        | primitive p => exact List.mem_append_right _ (List.mem_map_of_mem (by cases p <;> decide))
      obtain ⟨⟨nonempty, word⟩, found⟩ := checked n member
      exact ⟨⟨nonempty, List.all_eq_true.mp word⟩, found⟩
  | absent name => cases present

end Names

/-- Takes something from the front of a text, and gives the text that follows it. -/
abbrev Scan (α : Type) := List Char → Option (α × List Char)

namespace Scan

section Tokens

/-- The text after the given mark, which must stand in front. -/
def expect : List Char → List Char → Option (List Char)
  | [], cs => some cs
  | mark :: marks, c :: cs => if c = mark then expect marks cs else none
  | _ :: _, [] => none

/-- The longest word in front, which may be empty. -/
def word (cs : List Char) : String × List Char :=
  (String.ofList (cs.takeWhile isWordChar), cs.dropWhile isWordChar)

def hexValue (c : Char) : Nat := (List.range 16).findIdx (Nat.digitChar · == c)

/-- The character that stands after a backslash. -/
def escaped : Scan Char
  | 'n' :: cs => some ('\n', cs)
  | 'r' :: cs => some ('\r', cs)
  | 't' :: cs => some ('\t', cs)
  | 'u' :: a :: b :: c :: d :: cs =>
      some (Char.ofNat (((hexValue a * 16 + hexValue b) * 16 + hexValue c) * 16 + hexValue d), cs)
  | c :: cs => some (c, cs)
  | [] => none

-- The scanners that recur are defined as fixed points and call each other through local names, each
-- introduced by `apply`: a recursive call that is written as an application would keep its place in
-- the source inside of the definition.

/-- The text of a string literal after its first quote. -/
def stringText (cs : List Char) : Option (List Char × List Char) :=
  let stringText : Scan (List Char) := by apply stringText
  match cs with
  | [] => none
  | c :: cs =>
      if c = '"' then some ([], cs)
      else do
        let (c, cs) ← if c = '\\' then escaped cs else some (c, cs)
        let (text, cs) ← stringText cs
        return (c :: text, cs)
partial_fixpoint

/-- Words with commas between them. -/
def words (cs : List Char) : Option (List String × List Char) :=
  let words : Scan (List String) := by apply words
  let (first, cs) := word cs
  match expect [',', ' '] cs with
  | some cs => do
      let (others, cs) ← words cs
      return (first :: others, cs)
  | none => some ([first], cs)
partial_fixpoint

/-- The parameters of a function literal. -/
def params (cs : List Char) : Option (List String × List Char) :=
  match expect [')'] cs with
  | some cs => some ([], cs)
  | none => do
      let (names, cs) ← words cs
      return (names, ← expect [')'] cs)

/-- A label in front of a loop. -/
def label? (cs : List Char) : Option String × List Char :=
  match expect [':', ' '] (word cs).2 with
  | some rest => (some (word cs).1, rest)
  | none => (none, cs)

def unindented (cs : List Char) : List Char := cs.dropWhile (· == ' ')

/-- What a word stands for. -/
def named (name : String) : Scan Expr :=
  match name with
  | "true" => fun cs => some (.bool true, cs)
  | "false" => fun cs => some (.bool false, cs)
  | "undefined" => fun cs => some (.undefined, cs)
  | "internals" => fun cs => do
      let cs ← expect ['.'] cs
      return (.support (Support.ofName (word cs).1), (word cs).2)
  | name => fun cs => some (.ident name, cs)

end Tokens

section Trees

mutual

/-- An operand, which may be an expression in parentheses, with the accesses and calls after it. -/
def operand (cs : List Char) : Option (Expr × List Char) :=
  let accesses : Expr → Scan Expr := by apply accesses
  let items : Char → Scan (List Expr) := by apply items
  let expression : Scan Expr := by apply expression
  match cs with
  | '"' :: cs => do
      let (text, cs) ← stringText cs
      accesses (.string (String.ofList text)) cs
  | '(' :: cs => do
      let (e, cs) ← expression cs
      accesses e (← expect [')'] cs)
  | '[' :: cs => do
      let (elements, cs) ← items ']' cs
      accesses (.array elements) cs
  | cs =>
      if cs.head?.any Char.isDigit then do
        let n ← Number.whole? (cs.takeWhile Char.isDigit)
        accesses (.number n) (cs.dropWhile Char.isDigit)
      else do
        let (e, cs) ← named (word cs).1 (word cs).2
        accesses e cs
partial_fixpoint

/-- Accesses to members and elements, and calls. -/
def accesses (e : Expr) (cs : List Char) : Option (Expr × List Char) :=
  let accesses : Expr → Scan Expr := by apply accesses
  let items : Char → Scan (List Expr) := by apply items
  let expression : Scan Expr := by apply expression
  match cs with
  | '.' :: cs => accesses (.member e (word cs).1) (word cs).2
  | '[' :: cs => do
      let (position, cs) ← expression cs
      accesses (.index e position) (← expect [']'] cs)
  | '(' :: cs => do
      let (args, cs) ← items ')' cs
      accesses (.call e args) cs
  | cs => some (e, cs)
partial_fixpoint

/-- Items up to a bracket. -/
def items (close : Char) (cs : List Char) : Option (List Expr × List Char) :=
  let moreItems : Scan (List Expr) := by apply moreItems
  let item : Scan Expr := by apply item
  match expect [close] cs with
  | some cs => some ([], cs)
  | none => do
      let (first, cs) ← item cs
      let (others, cs) ← moreItems cs
      return (first :: others, ← expect [close] cs)
partial_fixpoint

/-- Items, each after a comma. -/
def moreItems (cs : List Char) : Option (List Expr × List Char) :=
  let moreItems : Scan (List Expr) := by apply moreItems
  let item : Scan Expr := by apply item
  match expect [',', ' '] cs with
  | none => some ([], cs)
  | some cs => do
      let (first, cs) ← item cs
      let (others, cs) ← moreItems cs
      return (first :: others, cs)
partial_fixpoint

/-- An expression, in which commas may stand. -/
def expression (cs : List Char) : Option (Expr × List Char) :=
  let moreItems : Scan (List Expr) := by apply moreItems
  let item : Scan Expr := by apply item
  do
    let (first, cs) ← item cs
    let (others, cs) ← moreItems cs
    return (if others.isEmpty then first else .comma (first :: others), cs)
partial_fixpoint

/-- An expression up to a comma. -/
def item (cs : List Char) : Option (Expr × List Char) :=
  let operand : Scan Expr := by apply operand
  let operation : Expr → Scan Expr := by apply operation
  let block : Scan (List Stmt) := by apply block
  match cs with
  | '!' :: cs => do
      let (e, cs) ← operand cs
      return (.unary .not e, cs)
  | '-' :: cs => do
      let (e, cs) ← operand cs
      return (.unary .neg e, cs)
  | cs =>
      if (word cs).1 = "function" then do
        let (names, cs) ← params (← expect ['('] (word cs).2)
        let (body, cs) ← block (← expect [' '] cs)
        return (.function names body, cs)
      else do
        let (left, cs) ← operand cs
        operation left cs
partial_fixpoint

/-- What an operator makes of the operand before it. -/
def operation (left : Expr) (cs : List Char) : Option (Expr × List Char) :=
  let operand : Scan Expr := by apply operand
  let item : Scan Expr := by apply item
  match cs with
  | ' ' :: cs =>
      let next := (cs.dropWhile (· != ' ')).drop 1
      match String.ofList (cs.takeWhile (· != ' ')) with
      | "=" => do
          let (value, cs) ← item next
          return (.assign left value, cs)
      | "?" => do
          let (yes, cs) ← operand next
          let (no, cs) ← operand (← expect [' ', ':', ' '] cs)
          return (.cond left yes no, cs)
      | sign => do
          let op ← BinaryOp.ofSign? sign
          let (right, cs) ← operand next
          return (.binary op left right, cs)
  | cs => some (left, cs)
partial_fixpoint

/-- Statements between braces. -/
def block (cs : List Char) : Option (List Stmt × List Char) :=
  let statements : Scan (List Stmt) := by apply statements
  do
    let (body, cs) ← statements (← expect ['\x7b', '\n'] cs)
    return (body, ← expect ['\x7d'] cs)
partial_fixpoint

/-- Lines up to a brace, a case or the end. -/
def statements (cs : List Char) : Option (List Stmt × List Char) :=
  let statements : Scan (List Stmt) := by apply statements
  let statement : Scan Stmt := by apply statement
  let cs := unindented cs
  if cs.head?.all (· == '\x7d') || ["case", "default"].contains (word cs).1 then some ([], cs)
  else do
    let (first, cs) ← statement cs
    let (others, cs) ← statements cs
    return (first :: others, cs)
partial_fixpoint

/-- A statement and the end of its line. -/
def statement (cs : List Char) : Option (Stmt × List Char) :=
  let afterWord : Option String → List Char → String → Scan Stmt := by apply afterWord
  let (label, cs) := label? cs
  afterWord label cs (word cs).1 (word cs).2
partial_fixpoint

/-- The statement that a word begins; a word that is no keyword begins an expression. -/
def afterWord (label : Option String) (whole : List Char) (name : String) (cs : List Char) :
    Option (Stmt × List Char) :=
  let expression : Scan Expr := by apply expression
  let item : Scan Expr := by apply item
  let block : Scan (List Stmt) := by apply block
  let sections : Scan (List Case) := by apply sections
  let handler : Scan Handler := by apply handler
  let cleanup : Scan Cleanup := by apply cleanup
  match name with
  | "var" => do
      let cs ← expect [' '] cs
      match expect [' ', '=', ' '] (word cs).2 with
      | some value => do
          let (value, rest) ← item value
          return (.define (word cs).1 value, ← expect [';', '\n'] rest)
      | none => return (.declare (word cs).1, ← expect [';', '\n'] (word cs).2)
  | "return" => do
      let (value, cs) ← expression (← expect [' '] cs)
      return (.ret value, ← expect [';', '\n'] cs)
  | "throw" => do
      let (value, cs) ← expression (← expect [' '] cs)
      return (.raise value, ← expect [';', '\n'] cs)
  | "break" =>
      match expect [' '] cs with
      | some cs => return (.leave (some (word cs).1), ← expect [';', '\n'] (word cs).2)
      | none => return (.leave none, ← expect [';', '\n'] cs)
  | "if" => do
      let (test, cs) ← expression (← expect [' ', '('] cs)
      let (yes, cs) ← block (← expect [')', ' '] cs)
      match expect [' ', 'e', 'l', 's', 'e', ' '] cs with
      | some cs => do
          let (no, cs) ← block cs
          return (.branch test yes no, ← expect ['\n'] cs)
      | none => return (.branch test yes [], ← expect ['\n'] cs)
  | "while" => do
      let (test, cs) ← expression (← expect [' ', '('] cs)
      let (body, cs) ← block (← expect [')', ' '] cs)
      return (.loop label test body, ← expect ['\n'] cs)
  | "for" => do
      let (start, cs) ← expression (← expect [' ', '('] cs)
      let (test, cs) ← expression (← expect [';', ' '] cs)
      let (update, cs) ← expression (← expect [';', ' '] cs)
      let (body, cs) ← block (← expect [')', ' '] cs)
      return (.iterate start test update body, ← expect ['\n'] cs)
  | "switch" => do
      let (subject, cs) ← expression (← expect [' ', '('] cs)
      let (cases, cs) ← sections (← expect [')', ' ', '\x7b', '\n'] cs)
      return (.select subject cases, ← expect ['\x7d', '\n'] cs)
  | "try" => do
      let (body, cs) ← block (← expect [' '] cs)
      let (handler, cs) ← handler cs
      let (cleanup, cs) ← cleanup cs
      return (.guarded body handler cleanup, ← expect ['\n'] cs)
  | _ => do
      let (value, cs) ← expression whole
      return (.effect value, ← expect [';', '\n'] cs)
partial_fixpoint

/-- The cases of a `select`. -/
def sections (cs : List Char) : Option (List Case × List Char) :=
  let expression : Scan Expr := by apply expression
  let statements : Scan (List Stmt) := by apply statements
  let sections : Scan (List Case) := by apply sections
  let cs := unindented cs
  match word cs with
  | ("case", cs) => do
      let (test, cs) ← expression (← expect [' '] cs)
      let (body, cs) ← statements (← expect [':', '\n'] cs)
      let (others, cs) ← sections cs
      return (.case test body :: others, cs)
  | ("default", cs) => do
      let (body, cs) ← statements (← expect [':', '\n'] cs)
      let (others, cs) ← sections cs
      return (.otherwise body :: others, cs)
  | _ => some ([], cs)
partial_fixpoint

def handler (cs : List Char) : Option (Handler × List Char) :=
  let block : Scan (List Stmt) := by apply block
  match expect [' ', 'c', 'a', 't', 'c', 'h', ' ', '('] cs with
  | some cs => do
      let (body, rest) ← block (← expect [')', ' '] (word cs).2)
      return (.catching (word cs).1 body, rest)
  | none => some (.none, cs)
partial_fixpoint

def cleanup (cs : List Char) : Option (Cleanup × List Char) :=
  let block : Scan (List Stmt) := by apply block
  match expect [' ', 'f', 'i', 'n', 'a', 'l', 'l', 'y', ' '] cs with
  | some cs => do
      let (body, cs) ← block cs
      return (.always body, cs)
  | none => some (.none, cs)
partial_fixpoint

end

end Trees

/-- The marks that an operand can start with, apart from a word. -/
def openers : List Char := ['"', '(', '[']

section Steps

variable {cs : List Char}

theorem operand_quote (cs : List Char) :
    operand ('"' :: cs) = (do
      let (text, cs) ← stringText cs
      accesses (.string (String.ofList text)) cs) := by rw [operand]

theorem operand_open (cs : List Char) :
    operand ('(' :: cs) = (do
      let (e, cs) ← expression cs
      accesses e (← expect [')'] cs)) := by rw [operand]

theorem operand_list (cs : List Char) :
    operand ('[' :: cs) = (do
      let (elements, cs) ← items ']' cs
      accesses (.array elements) cs) := by rw [operand]

theorem operand_plain (other : ∀ c ∈ cs.head?, c ∉ openers) :
    operand cs = (if cs.head?.any Char.isDigit then (do
        let n ← Number.whole? (cs.takeWhile Char.isDigit)
        accesses (.number n) (cs.dropWhile Char.isDigit))
      else (do
        let (e, cs) ← named (word cs).1 (word cs).2
        accesses e cs)) := by
  rw [operand]
  · rintro _ rfl
    exact other _ rfl (by decide)
  · rintro _ rfl
    exact other _ rfl (by decide)
  · rintro _ rfl
    exact other _ rfl (by decide)

theorem accesses_dot (e : Expr) (cs : List Char) :
    accesses e ('.' :: cs) = accesses (.member e (word cs).1) (word cs).2 := by rw [accesses]

theorem accesses_index (e : Expr) (cs : List Char) :
    accesses e ('[' :: cs) = (do
      let (position, cs) ← expression cs
      accesses (.index e position) (← expect [']'] cs)) := by rw [accesses]

theorem accesses_call (e : Expr) (cs : List Char) :
    accesses e ('(' :: cs) = (do
      let (args, cs) ← items ')' cs
      accesses (.call e args) cs) := by rw [accesses]

theorem accesses_other (e : Expr) (other : ∀ c ∈ cs.head?, c ∉ ['.', '[', '(']) :
    accesses e cs = some (e, cs) := by
  rw [accesses]
  · rintro _ rfl
    exact other _ rfl (by decide)
  · rintro _ rfl
    exact other _ rfl (by decide)
  · rintro _ rfl
    exact other _ rfl (by decide)

theorem item_not (cs : List Char) :
    item ('!' :: cs) = (do let (e, cs) ← operand cs; return (.unary .not e, cs)) := by rw [item]

theorem item_neg (cs : List Char) :
    item ('-' :: cs) = (do let (e, cs) ← operand cs; return (.unary .neg e, cs)) := by rw [item]

theorem item_plain (other : ∀ c ∈ cs.head?, c ∉ ['!', '-']) :
    item cs = (if (word cs).1 = "function" then (do
        let (names, cs) ← params (← expect ['('] (word cs).2)
        let (body, cs) ← block (← expect [' '] cs)
        return (.function names body, cs))
      else (do
        let (left, cs) ← operand cs
        operation left cs)) := by
  rw [item]
  · rintro _ rfl
    exact other _ rfl (by decide)
  · rintro _ rfl
    exact other _ rfl (by decide)

theorem operation_other (left : Expr) (other : ∀ c ∈ cs.head?, c ≠ ' ') :
    operation left cs = some (left, cs) := by
  rw [operation]
  rintro _ rfl
  exact other _ rfl rfl

end Steps

/-- Nothing, or a character that ends a word. -/
def EndsWord (rest : List Char) : Prop := ∀ c ∈ rest.head?, isWordChar c = false

section Laws

variable {text rest : List Char}

theorem takeWhile_append {p : Char → Bool} (all : ∀ c ∈ text, p c = true)
    (ends : ∀ c ∈ rest.head?, p c = false) :
    (text ++ rest).takeWhile p = text ∧ (text ++ rest).dropWhile p = rest := by
  rw [List.takeWhile_append_of_pos all, List.dropWhile_append_of_pos all]
  cases rest with
  | nil => simp
  | cons c rest => simp [ends c rfl]

theorem word_append (all : ∀ c ∈ text, isWordChar c = true) (ends : EndsWord rest) :
    word (text ++ rest) = (String.ofList text, rest) := by
  obtain ⟨taken, dropped⟩ := takeWhile_append all ends
  rw [word, taken, dropped]

theorem IsWord.word_append {name : String} (isWord : IsWord name) (ends : EndsWord rest) :
    word (name.toList ++ rest) = (name, rest) := by
  rw [Scan.word_append isWord.2 ends, String.ofList_toList]

/-- A word that is not there. -/
theorem word_of_endsWord (ends : EndsWord rest) : word rest = ("", rest) :=
  @Scan.word_append [] rest nofun ends

theorem hexValue_digitChar : ∀ d < 16, hexValue (Nat.digitChar d) = d := by decide

theorem escaped_fourHexDigits {c : Char} (small : c.toNat < 65536) (cs : List Char) :
    escaped ('u' :: (fourHexDigits c.toNat ++ cs)) = some (c, cs) := by
  have digit : ∀ place, hexValue (Nat.digitChar (c.toNat / Nat.pow 16 place % 16)) =
      c.toNat / Nat.pow 16 place % 16 := fun place => hexValue_digitChar _ (Nat.mod_lt _ (by decide))
  have code : ((c.toNat / 16 ^ 3 % 16 * 16 + c.toNat / 16 ^ 2 % 16) * 16 + c.toNat / 16 ^ 1 % 16) * 16 +
      c.toNat / 16 ^ 0 % 16 = c.toNat := by omega
  simp only [fourHexDigits, List.cons_append, List.nil_append, escaped, digit]
  change some (Char.ofNat (((c.toNat / 16 ^ 3 % 16 * 16 + c.toNat / 16 ^ 2 % 16) * 16 +
    c.toNat / 16 ^ 1 % 16) * 16 + c.toNat / 16 ^ 0 % 16), cs) = _
  rw [code, Char.ofNat_toNat]

theorem stringText_escaped {c : Char} {cs after : List Char} (found : escaped cs = some (c, after)) :
    stringText ('\\' :: cs) = (do let (text, rest) ← stringText after; return (c :: text, rest)) := by
  rw [stringText, if_neg (by decide), if_pos rfl, found]
  rfl

/-- One character of a string literal is read as the one that it stands for. -/
theorem stringText_quoteChar (c : Char) (cs : List Char) :
    stringText (quoteChar c ++ cs) =
      (do let (text, rest) ← stringText cs; return (c :: text, rest)) := by
  unfold quoteChar
  split_ifs with quote backslash newline return_ tab special
  · subst quote; exact stringText_escaped rfl
  · subst backslash; exact stringText_escaped rfl
  · subst newline; exact stringText_escaped rfl
  · subst return_; exact stringText_escaped rfl
  · subst tab; exact stringText_escaped rfl
  · have small : c.toNat < 65536 := by
      simp only [Bool.or_eq_true, decide_eq_true_eq] at special
      omega
    exact stringText_escaped (escaped_fourHexDigits small cs)
  · rw [List.singleton_append, stringText, if_neg quote, if_neg backslash]
    rfl

theorem stringText_quoteChars (text : List Char) (rest : List Char) :
    stringText (quoteChars text ++ '"' :: rest) = some (text, rest) := by
  induction text with
  | nil => rw [quoteChars, List.flatMap_nil, List.nil_append, stringText, if_pos rfl]
  | cons c text ih =>
      rw [quoteChars, List.flatMap_cons, List.append_assoc, stringText_quoteChar, ← quoteChars, ih]
      rfl

end Laws

end Scan

section Quoting

theorem toList_quote (text : String) :
    (quote text).toList = '"' :: (quoteChars text.toList ++ ['"']) :=
  String.toList_ofList

theorem quote_injective : Function.Injective quote := by
  intro text other same
  have lists := congrArg String.toList same
  rw [toList_quote, toList_quote] at lists
  have read := Scan.stringText_quoteChars text.toList []
  rw [(List.cons.inj lists).2, Scan.stringText_quoteChars] at read
  exact (String.toList_inj.mp (Prod.mk.inj (Option.some.inj read)).1).symm

def lineTerminators : List Char := ['\n', '\r', '\u2028', '\u2029']

/-- Whether a quote stands in a text that no backslash escapes. -/
def hasBareQuote : List Char → Bool
  | '\\' :: _ :: cs => hasBareQuote cs
  | '"' :: _ => true
  | _ :: cs => hasBareQuote cs
  | [] => false

/-- The hexadecimal digits of an escape are no quotes and no backslashes. -/
theorem plainHexDigits (n : Nat) : ∀ c ∈ fourHexDigits n, c ≠ '"' ∧ c ≠ '\\' ∧ c ∉ lineTerminators := by
  have digit : ∀ d < 16, Nat.digitChar d ≠ '"' ∧ Nat.digitChar d ≠ '\\' ∧
      Nat.digitChar d ∉ lineTerminators := by decide
  simp only [fourHexDigits, List.forall_mem_cons]
  exact ⟨digit _ (Nat.mod_lt _ (by decide)), digit _ (Nat.mod_lt _ (by decide)),
    digit _ (Nat.mod_lt _ (by decide)), digit _ (Nat.mod_lt _ (by decide)), nofun⟩

theorem hasBareQuote_append {text : List Char} (plain : ∀ c ∈ text, c ≠ '"' ∧ c ≠ '\\')
    (cs : List Char) : hasBareQuote (text ++ cs) = hasBareQuote cs := by
  induction text with
  | nil => rfl
  | cons c text ih =>
      obtain ⟨here, rest⟩ := List.forall_mem_cons.mp plain
      rw [List.cons_append, hasBareQuote, ih rest]
      · exact fun _ _ same => absurd same here.2
      · exact fun same => absurd same here.1

theorem hasBareQuote_quoteChar (c : Char) (cs : List Char) :
    hasBareQuote (quoteChar c ++ cs) = hasBareQuote cs := by
  unfold quoteChar
  split_ifs with quote backslash
  · rfl
  · rfl
  · rfl
  · rfl
  · rfl
  · change hasBareQuote (fourHexDigits c.toNat ++ cs) = _
    exact hasBareQuote_append (fun d member => by
      obtain ⟨noQuote, noBackslash, -⟩ := plainHexDigits _ d member
      exact ⟨noQuote, noBackslash⟩) cs
  · exact hasBareQuote_append (by simpa using ⟨quote, backslash⟩) cs

theorem hasBareQuote_quoteChars (text cs : List Char) :
    hasBareQuote (quoteChars text ++ cs) = hasBareQuote cs := by
  induction text with
  | nil => rfl
  | cons c text ih =>
      rw [quoteChars, List.flatMap_cons, List.append_assoc, hasBareQuote_quoteChar, ← quoteChars, ih]

theorem quoteChar_oneLine (c : Char) : ∀ d ∈ quoteChar c, d ∉ lineTerminators := by
  unfold quoteChar
  split_ifs with quote backslash newline return_ tab special
  · simp [lineTerminators]
  · simp [lineTerminators]
  · simp [lineTerminators]
  · simp [lineTerminators]
  · simp [lineTerminators]
  · exact List.forall_mem_cons.mpr ⟨by simp [lineTerminators], List.forall_mem_cons.mpr ⟨by simp [lineTerminators],
      fun d member => (plainHexDigits _ d member).2.2⟩⟩
  · simp only [Bool.or_eq_true, decide_eq_true_eq, not_or] at special
    rw [List.forall_mem_singleton]
    intro ends
    simp only [lineTerminators, List.mem_cons, List.not_mem_nil, or_false] at ends
    rcases ends with rfl | rfl | rfl | rfl
    · exact newline rfl
    · exact return_ rfl
    · exact special.1.2 rfl
    · exact special.2 rfl

end Quoting

end LispScript.Script
