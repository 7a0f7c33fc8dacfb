import LispScript.Proofs.Hoisting
import LispScript.Proofs.Receiving
import LispScript.Proofs.ArgumentLoops
import LispScript.Proofs.LambdaLists
import LispScript.Proofs.Registry

/-!
The head of a unit. Running it makes every literal once, in the order in which they were compiled:
symbols are found again, and each cons and vector is a new object whose parts are the values of the
literals before it.
-/

namespace LispScript

open Script Compiler Machine Discipline

/-- Some variables of one scope have changed, and there may be new conses, vectors and strings. -/
structure Prepares (c : Nat) (names : String → Prop) (i j : Image) : Prop where
  rest : ∃ cells vectors strings scopes,
    j = { i with heap := { i.heap with cells, vectors, strings, scopes } }
  keeps : i.heap.Keeps j.heap
  size : j.heap.scopes.size = i.heap.scopes.size
  others : ∀ b, b ≠ c → j.heap.scope b = i.heap.scope b
  parent : (j.heap.scope c).parent = (i.heap.scope c).parent
  isFunction : (j.heap.scope c).isFunction = (i.heap.scope c).isFunction
  kept : ∀ name, ¬ names name → j.own? c name = i.own? c name

/-- A scope of a running function. -/
structure Active (c : Nat) (i : Image) : Prop where
  ordered : Ordered i.heap
  bound : c < i.heap.scopes.size
  isFunction : (i.heap.scope c).isFunction = true

variable {c : Nat} {names more : String → Prop} {i j k : Image} {made made' : LiteralKey → Value}
  {entries : List Hoisted} {entry : Hoisted} {datum value : Value} {code : Expr} {name : String}

section Changes

theorem Prepares.refl (c : Nat) (names : String → Prop) (i : Image) : Prepares c names i i :=
  ⟨⟨_, _, _, _, rfl⟩, .refl _, rfl, fun _ _ => rfl, rfl, rfl, fun _ _ => rfl⟩

theorem Prepares.trans (first : Prepares c names i j) (second : Prepares c names j k) :
    Prepares c names i k where
  rest := by
    obtain ⟨_, _, _, _, rfl⟩ := first.rest
    obtain ⟨_, _, _, _, rfl⟩ := second.rest
    exact ⟨_, _, _, _, rfl⟩
  keeps := first.keeps.trans second.keeps
  size := second.size.trans first.size
  others b ne := (second.others b ne).trans (first.others b ne)
  parent := second.parent.trans first.parent
  isFunction := second.isFunction.trans first.isFunction
  kept name free := (second.kept name free).trans (first.kept name free)

theorem Prepares.mono (prepares : Prepares c names i j) (wider : ∀ name, names name → more name) :
    Prepares c more i j :=
  { prepares with
    kept := fun name free => prepares.kept name fun changed => free (wider name changed) }

theorem Machine.Touches.prepares (touches : Touches c names i j) : Prepares c names i j where
  rest := by
    obtain ⟨_, _, _, rfl⟩ := touches.rest
    exact ⟨_, _, _, _, rfl⟩
  keeps := touches.keeps
  size := touches.size
  others := touches.others
  parent := touches.parent
  isFunction := touches.isFunction
  kept := touches.kept

theorem Prepares.allocVector (c : Nat) (names : String → Prop) (i : Image) (items : Array Value) :
    Prepares c names i { i with heap := (i.heap.allocVector items).2 } :=
  ⟨⟨_, _, _, _, rfl⟩, Heap.keeps_allocVector i.heap items, rfl, fun _ _ => rfl, rfl, rfl,
    fun _ _ => rfl⟩

theorem Prepares.symbols (prepares : Prepares c names i j) : j.symbols = i.symbols := by
  obtain ⟨_, _, _, _, rfl⟩ := prepares.rest
  rfl

theorem Prepares.active (prepares : Prepares c names i j) (active : Active c i) : Active c j where
  ordered := by
    have functions : ∀ a, j.heap.function a = i.heap.function a := by
      obtain ⟨_, _, _, _, rfl⟩ := prepares.rest
      exact fun _ => rfl
    refine ⟨prepares.size ▸ active.ordered.global, fun b p parent => ?_,
      fun a params body b callable => ?_,
      fun n => (congrArg FunctionObject.callable (functions _)).trans (active.ordered.natives n)⟩
    · refine active.ordered.parents b p ?_
      by_cases here : b = c
      · subst here
        exact prepares.parent ▸ parent
      · exact prepares.others b here ▸ parent
    · rw [functions] at callable
      exact prepares.size ▸ active.ordered.closures a params body b callable
  bound := prepares.size ▸ active.bound
  isFunction := prepares.isFunction.trans active.isFunction

theorem Active.exec_define {call : Caller} {turns : Nat} {e : Expr} (active : Active c j)
    (ended : evalExpr call turns c e i = .ok value j) :
    exec call turns c (.define name e) i = .ok .normal (j.setOwn c name value) := by
  have own : j.heap.functionScope c = c := by
    obtain ⟨n, size_eq⟩ : ∃ n, j.heap.scopes.size = n + 1 :=
      ⟨j.heap.scopes.size - 1, by have := active.bound; omega⟩
    simp [Heap.functionScope, size_eq, Heap.findScopeWithin, active.isFunction]
  rw [exec, bind_of_ok ended]
  change EStateM.Result.ok Flow.normal { j with heap := j.heap.defineVariable c name value } = _
  rw [Heap.defineVariable, own]
  rfl

end Changes

section Values

/-- A symbol or character, or a cons or vector that the heap has. -/
def Heap.Holds (heap : Heap) : Value → Prop
  | .cons address => address < heap.cells.size
  | .vector address => address < heap.vectors.size
  | _ => True

theorem Heap.Keeps.parts {heap later : Heap} (keeps : heap.Keeps later) (holds : heap.Holds value) :
    later.parts value = heap.parts value := by
  cases value with
  | cons address => rw [Heap.parts, keeps.cell address holds, Heap.parts]
  | vector address => rw [Heap.parts, keeps.vector address holds, Heap.parts]
  | _ => rfl

/-- Where the literals of a unit are found, with the values that the unit has for them. -/
structure Readied (entries : List Hoisted) (made : LiteralKey → Value) (c : Nat) (i : Image) :
    Prop where
  held : ∀ entry ∈ entries, i.heap.lookupVariable? c entry.name = some (made entry.key)
  symbol : ∀ id, made (.symbol id) = .symbol id
  character : ∀ ch, made (.character ch) = .character ch

theorem forall₂_congr_left {α β γ : Type} {r : α → γ → Prop} {p q : α → β → Prop} {as : List α}
    {bs : List β} {cs : List γ} (related : List.Forall₂ r as cs) (first : List.Forall₂ p as bs)
    (step : ∀ a c b, r a c → p a b → q a b) : List.Forall₂ q as bs := by
  induction first generalizing cs with
  | nil => exact .nil
  | cons head _ ih =>
      cases related with
      | cons relation related => exact .cons (step _ _ _ relation head) (ih related)

/-- The value of a literal depends on those of the literals that it is made of only. -/
theorem Compiler.LiteralValue.congr (value_eq : LiteralValue made datum value)
    (denotes : Denotes entries datum code)
    (same : ∀ entry ∈ entries, made' entry.key = made entry.key) : LiteralValue made' datum value := by
  cases denotes with
  | @named entry member key =>
      have at_key := same entry member
      cases datum with
      | cons a =>
          rw [← (Option.some.inj key : LiteralKey.cons a = entry.key)] at at_key
          exact value_eq.trans at_key.symm
      | vector a =>
          rw [← (Option.some.inj key : LiteralKey.vector a = entry.key)] at at_key
          exact value_eq.trans at_key.symm
      | _ => exact value_eq
  | written written =>
      cases datum with
      | cons | vector => cases written
      | _ => exact value_eq

/-- Where the literals have their values, code that refers to them gives the value of its datum. -/
theorem Readied.eval (call : Caller) (turns : Nat) (readied : Readied entries made c i)
    (denotes : Denotes entries datum code) :
    ∃ value j, evalExpr call turns c code i = .ok value j ∧ Touches c (fun _ => False) i j ∧
      LiteralValue made datum value := by
  cases denotes with
  | @named entry member key =>
      refine ⟨_, i, evalExpr_ident (readied.held entry member), .refl .., ?_⟩
      cases datum with
      | symbol id =>
          rw [literalKey?] at key
          split at key
          · cases key
          · rename_i other
            rw [← Option.some.inj key, readied.symbol]
            exact (if_neg fun isNil => other (.inl isNil)).symm
      | character ch =>
          rw [← (Option.some.inj key : LiteralKey.character ch = entry.key)]
          exact readied.character ch
      | cons a => rw [← (Option.some.inj key : LiteralKey.cons a = entry.key)]; rfl
      | vector a => rw [← (Option.some.inj key : LiteralKey.vector a = entry.key)]; rfl
      | _ => cases key
  | written written =>
      cases datum with
      | nil =>
          cases written
          exact ⟨_, i, settles_nil, .refl .., rfl⟩
      | number n =>
          cases written
          exact ⟨_, i, settles_number n, .refl .., rfl⟩
      | string address text =>
          cases written
          exact ⟨_, _, rfl, .allocString c _ i text, _, rfl⟩
      | symbol id =>
          rw [writtenCode?] at written
          split at written
          · rename_i isNil
            cases written
            exact ⟨_, i, settles_nil, .refl .., (if_pos isNil).symm⟩
          · rename_i notNil
            split at written
            · rename_i isT
              cases written
              exact ⟨_, i, settles_t, .refl .., isT ▸ rfl⟩
            · cases written
      | _ => cases written

/-- The same of the codes of several literals, evaluated from the left to the right. -/
theorem Readied.evalList (call : Caller) (turns : Nat) {data : List Value} {codes : List Expr}
    (readied : Readied entries made c i) (denote : List.Forall₂ (Denotes entries) data codes) :
    ∃ values j, evalList call turns c codes i = .ok values j ∧ Touches c (fun _ => False) i j ∧
      List.Forall₂ (LiteralValue made) data values := by
  induction denote generalizing i with
  | nil => exact ⟨[], i, rfl, .refl .., .nil⟩
  | cons first _ ih =>
      obtain ⟨value, j, ran, touches, isValue⟩ := readied.eval call turns first
      have later : Readied entries made c j :=
        ⟨fun entry member => (touches.lookup id c).trans (readied.held entry member),
          readied.symbol, readied.character⟩
      obtain ⟨values, k, others, touches', areValues⟩ := ih later
      refine ⟨value :: values, k, ?_, touches.trans touches', .cons isValue areValues⟩
      rw [Machine.evalList, bind_of_ok ran, bind_of_ok others]
      rfl

end Values

section Symbols

variable {table : SymbolTable} {id : SymbolId}

/-- A symbol of one table, which a later one has kept. -/
structure SymbolTable.KeepsSymbol (table later : SymbolTable) (id : SymbolId) : Prop where
  has : table.HasSymbol id
  wellFormed : table.WellFormed
  keeps : table.Keeps later

/-- A symbol with a home is found again in it, whatever package is current. -/
theorem internSymbol_found {later : SymbolTable} (kept : table.KeepsSymbol later id)
    (wellFormed : later.WellFormed) {home : PackageId} (at_home : (table.symbol id).home = some home)
    (symbols : i.symbols = later) (a b : Address) :
    internSymbol [.string a (table.symbol id).name, .string b (table.packageName home)] i =
      .ok (.ofSymbol id) i := by
  subst symbols
  obtain ⟨hasHome, own⟩ := kept.wellFormed.homes id home kept.has at_home
  obtain ⟨hasHome', named⟩ := kept.keeps.packages home hasHome
  have found : i.symbols.findPackage? (table.packageName home) = some home := by
    refine wellFormed.findPackage? hasHome' ?_
    rw [named]
    simp [Package.isNamed, SymbolTable.packageName]
  have interned : i.symbols.intern (table.symbol id).name home = (id, i.symbols) :=
    SymbolTable.intern_of_found (SymbolTable.findSymbol?_of_own (kept.keeps.own _ _ _ own))
  unfold internSymbol
  change (Run.symbols >>= _) i = _
  rw [bind_of_ok (rfl : Run.symbols i = .ok i.symbols i), found]
  change EStateM.Result.ok (Value.ofSymbol (i.symbols.intern (table.symbol id).name home).1)
    { i with symbols := (i.symbols.intern (table.symbol id).name home).2 } = _
  rw [interned]

/-- A symbol without a home is found again by its number, as long as numbers are machine words. -/
theorem uninternedSymbol_found {later : SymbolTable} (kept : table.KeepsSymbol later id)
    (homeless : (table.symbol id).home = none) (small : later.symbols.size ≤ 2 ^ 32)
    (symbols : i.symbols = later) (a : Address) :
    uninternedSymbol [.string a (table.symbol id).name, .number (Float.ofNat id.index)] i =
      .ok (.symbol id) i := by
  subst symbols
  obtain ⟨has, named, home_eq⟩ := kept.keeps.symbols id kept.has
  have bound : id.index < i.symbols.symbols.size := has
  have number : min (Number.toCount (Float.ofNat id.index)) (Nat.pow 2 32 - 1) = id.index := by
    rw [Number.toCount_ofNat (by rw [Number.exactLimit]; omega),
      Nat.min_eq_left (by change id.index ≤ 2 ^ 32 - 1; omega)]
  have known : (decide (id.index < i.symbols.symbolCount) && (i.symbols.symbol id).home.isNone &&
      (i.symbols.symbol id).name == (table.symbol id).name) = true := by
    have name_eq : (i.symbols.symbol id).name = (table.symbol id).name := named
    rw [home_eq, homeless, name_eq]
    simp [SymbolTable.symbolCount, bound]
  unfold uninternedSymbol
  change (Run.symbols >>= _) i = _
  rw [bind_of_ok (rfl : Run.symbols i = .ok i.symbols i), number]
  dsimp only
  rw [if_pos known]
  rfl

theorem runNative_internSymbol (call : Caller) (args : List Value) :
    runNative call (.routine .internSymbol) args = internSymbol args := rfl

theorem runNative_uninternedSymbol (call : Caller) (args : List Value) :
    runNative call (.routine .uninternedSymbol) args = uninternedSymbol args := rfl

/-- The code that finds a symbol again finds it, and makes none. -/
theorem symbolInitializer_found (turns steps : Nat) (active : Active c i)
    (kept : table.KeepsSymbol i.symbols id) (wellFormed : i.symbols.WellFormed)
    (small : i.symbols.symbols.size ≤ 2 ^ 32) (notNil : id ≠ SymbolId.nil) :
    ∃ j, evalExpr (callWithin (steps + 1)) turns c (symbolInitializer table id) i =
      .ok (.symbol id) j ∧ Touches c (fun _ => False) i j := by
  unfold symbolInitializer
  dsimp only
  cases at_home : (table.symbol id).home with
  | some home =>
      have first := Touches.allocString c (fun _ => False) i (table.symbol id).name
      have both := first.trans (Touches.allocString c (fun _ => False) _ (table.packageName home))
      refine ⟨_, ?_, both⟩
      have same : Value.ofSymbol id = .symbol id := if_neg notNil
      rw [evalExpr_callRoutine (both.ordered active.ordered) rfl, ← same, runNative_internSymbol,
        internSymbol_found kept wellFormed at_home]
      rfl
  | none =>
      have touches := Touches.allocString c (fun _ => False) i (table.symbol id).name
      refine ⟨_, ?_, touches⟩
      rw [evalExpr_callRoutine (touches.ordered active.ordered) rfl, runNative_uninternedSymbol,
        uninternedSymbol_found kept at_home small]
      rfl

end Symbols

section Making

/-- What is made for a literal: a symbol or character is itself, a cons or vector is a new one. -/
def IsMadeFor (heap later : Heap) : LiteralKey → Value → Prop
  | .symbol id, value => value = .symbol id
  | .character ch, value => value = .character ch
  | .cons _, value => ∃ b, value = .cons b ∧ heap.cells.size ≤ b ∧ b < later.cells.size
  | .vector _, value => ∃ b, value = .vector b ∧ heap.vectors.size ≤ b ∧ b < later.vectors.size

/-- A table in which symbols can be found by their numbers and names. -/
structure SymbolTable.Searchable (table : SymbolTable) : Prop where
  wellFormed : table.WellFormed
  small : table.symbols.size ≤ 2 ^ 32

/-- If a literal is a symbol, it can be found in a table. -/
def Compiler.Hoisted.FoundIn (entry : Hoisted) (later : SymbolTable) : Prop :=
  ∀ id, entry.key = .symbol id → entry.image.symbols.KeepsSymbol later id ∧ later.Searchable

theorem evalExpr_primitive {turns steps : Nat} {p : Primitive} {args : List Expr}
    {values : List Value} (ordered : Ordered j.heap)
    (done : evalList (callWithin (steps + 1)) turns c args i = .ok values j) :
    evalExpr (callWithin (steps + 1)) turns c (.callPrimitive p args) i =
      runPrimitive (callWithin steps) p values j := by
  rw [Expr.callPrimitive, evalExpr_call fun _ _ same => by cases same]
  have found : evalExpr (callWithin (steps + 1)) turns c (.support (.native (.primitive p))) i =
      .ok (.function (Image.nativeAddress (.primitive p))) i := rfl
  rw [bind_of_ok found, bind_of_ok done]
  exact callWithin_native ordered _ _

/-- A character is found again by its code. -/
theorem evalExpr_character {turns steps : Nat} (active : Active c i) (ch : Char) :
    evalExpr (callWithin (steps + 1)) turns c
      (.callRoutine .character [.number (Float.ofNat ch.toNat)]) i = .ok (.character ch) i := by
  have small : ch.toNat < 2 ^ 32 := by
    have := ch.val.toNat_lt
    exact this
  have code : ch.toNat % Nat.pow 2 32 = ch.toNat := Nat.mod_eq_of_lt small
  rw [evalExpr_callRoutine active.ordered (evalList_settled (.cons (settles_number _) .nil))]
  have run : runNative (callWithin steps) (.routine .character) [countValue ch.toNat] =
      characterOf (countValue ch.toNat) := rfl
  change runNative _ _ [countValue ch.toNat] i = _
  rw [run, characterOf, bind_of_ok (count_ok ch.toNat)]
  have valid : ch.toNat.isValidChar := ch.valid
  rw [Number.toCount_ofNat (by rw [Number.exactLimit]; omega), code, if_pos valid, Char.ofNat_toNat]
  rfl

/-- The code that makes a literal makes it of the values of the literals before it. -/
theorem Readied.make (turns steps : Nat) (readied : Readied entries made c i) (active : Active c i)
    (makes : Makes entries entry) (found : entry.FoundIn i.symbols) :
    ∃ value j, evalExpr (callWithin (steps + 1)) turns c entry.code i = .ok value j ∧
      Prepares c (fun _ => False) i j ∧ IsMadeFor i.heap j.heap entry.key value ∧
      List.Forall₂ (LiteralValue made) entry.parts (j.heap.parts value) := by
  obtain ⟨key, number, code, image⟩ := entry
  cases key with
  | symbol id =>
      obtain ⟨notNil, same⟩ := makes
      obtain rfl : code = symbolInitializer image.symbols id := same
      obtain ⟨kept, searchable⟩ := found id rfl
      obtain ⟨j, ran, touches⟩ := symbolInitializer_found turns steps active kept
        searchable.wellFormed searchable.small notNil
      exact ⟨_, j, ran, touches.prepares, rfl, .nil⟩
  | character ch =>
      obtain rfl : code = .callRoutine .character [.number (Float.ofNat ch.toNat)] := makes
      exact ⟨.character ch, i, evalExpr_character active ch, .refl .., rfl, .nil⟩
  | cons a =>
      obtain ⟨codes, denote, rfl⟩ := makes
      obtain ⟨values, j, ran, touches, areValues⟩ := readied.evalList
        (callWithin (steps + 1)) turns denote
      have parts_eq : (⟨.cons a, number, .callPrimitive .cons codes, image⟩ : Hoisted).parts =
          [(image.heap.cell a).car, (image.heap.cell a).cdr] := rfl
      rw [parts_eq] at areValues
      rcases areValues with _ | ⟨first, _ | ⟨second, _ | _⟩⟩
      rename_i x y
      refine ⟨.cons j.heap.cells.size, { j with heap := (j.heap.allocCell x y).2 }, ?_, ?_, ?_, ?_⟩
      · rw [evalExpr_primitive (touches.ordered active.ordered) ran]
        rfl
      · exact touches.prepares.trans (Touches.allocCell c _ j x y).prepares
      · exact ⟨_, rfl, touches.keeps.cells, by simp [Heap.allocCell]⟩
      · rw [parts_eq, Heap.parts, Heap.allocCell_cell]
        exact .cons first (.cons second .nil)
  | vector a =>
      obtain ⟨codes, denote, rfl⟩ := makes
      obtain ⟨values, j, ran, touches, areValues⟩ := readied.evalList
        (callWithin (steps + 1)) turns denote
      refine ⟨.vector j.heap.vectors.size, { j with heap := (j.heap.allocVector values.toArray).2 },
        ?_, ?_, ?_, ?_⟩
      · rw [evalExpr_primitive (touches.ordered active.ordered) ran]
        rfl
      · exact touches.prepares.trans (.allocVector c _ j _)
      · exact ⟨_, rfl, touches.keeps.vectors, by simp [Heap.allocVector]⟩
      · have items : (j.heap.allocVector values.toArray).2.vector j.heap.vectors.size =
            values.toArray := by simp [Heap.allocVector, Heap.vector]
        rw [Heap.parts, items]
        exact areValues

theorem IsMadeFor.wider {heap heap' later later' : Heap} {key : LiteralKey}
    (isMade : IsMadeFor heap later key value) (before : heap'.Keeps heap) (after : later.Keeps later') :
    IsMadeFor heap' later' key value := by
  cases key with
  | symbol | character => exact isMade
  | cons a =>
      obtain ⟨b, is, lower, upper⟩ := isMade
      exact ⟨b, is, Nat.le_trans before.cells lower, Nat.lt_of_lt_of_le upper after.cells⟩
  | vector a =>
      obtain ⟨b, is, lower, upper⟩ := isMade
      exact ⟨b, is, Nat.le_trans before.vectors lower, Nat.lt_of_lt_of_le upper after.vectors⟩

/-- What is made for one literal before another is made is not what is made for that. -/
theorem IsMadeFor.unique {heap middle later : Heap} {key other : LiteralKey}
    (first : IsMadeFor heap middle key value) (second : IsMadeFor middle later other value) :
    key = other := by
  cases key <;> cases other <;> simp only [IsMadeFor] at first second <;> grind

theorem IsMadeFor.holds {heap later : Heap} {key : LiteralKey} (isMade : IsMadeFor heap later key value) :
    later.Holds value := by
  cases key with
  | symbol | character =>
      obtain rfl := isMade
      trivial
  | cons | vector =>
      obtain ⟨b, rfl, -, upper⟩ := isMade
      exact upper

/-- The values of the literals after the head was run. -/
structure HeadRan (entries : List Hoisted) (made : LiteralKey → Value) (c : Nat) (i j : Image) :
    Prop where
  prepares : Prepares c (fun name => ∃ entry ∈ entries, entry.name = name) i j
  held : ∀ entry ∈ entries, j.own? c entry.name = some (made entry.key)
  symbol : ∀ id, made (.symbol id) = .symbol id
  character : ∀ ch, made (.character ch) = .character ch
  isMade : ∀ entry ∈ entries, IsMadeFor i.heap j.heap entry.key (made entry.key)
  parts : ∀ entry ∈ entries, List.Forall₂ (LiteralValue made) entry.parts
    (j.heap.parts (made entry.key))
  distinct : ∀ entry ∈ entries, ∀ other ∈ entries, made entry.key = made other.key →
    entry.key = other.key

theorem HeadRan.nil (c : Nat) (i : Image) : HeadRan [] LiteralKey.datum c i i :=
  ⟨.refl .., nofun, fun _ => rfl, fun _ => rfl, nofun, nofun, nofun⟩

theorem HeadRan.readied (ran : HeadRan entries made c i j) (active : Active c j) :
    Readied entries made c j :=
  ⟨fun entry member => lookupVariable?_own active.bound (ran.held entry member), ran.symbol,
    ran.character⟩

/-- Where the values of earlier literals stay, so do those of the literals that are made of them. -/
theorem Compiler.Makes.parts_congr (makes : Makes entries entry) {values : List Value}
    (parts : List.Forall₂ (LiteralValue made) entry.parts values)
    (same : ∀ other ∈ entries, made' other.key = made other.key) :
    List.Forall₂ (LiteralValue made') entry.parts values := by
  obtain ⟨key, number, code, image⟩ := entry
  cases key with
  | symbol | character =>
      cases parts
      exact .nil
  | cons | vector =>
      obtain ⟨codes, denote, -⟩ := makes
      exact forall₂_congr_left denote parts fun _ _ _ denotes value_eq =>
        LiteralValue.congr value_eq denotes same

/-- One more literal is made. -/
theorem HeadRan.snoc (turns steps : Nat) (ran : HeadRan entries made c i j) (active : Active c j)
    (inOrder : InOrder entries) (later : ∀ other ∈ entries, other.number < entry.number)
    (new : ∀ other ∈ entries, other.key ≠ entry.key) (makes : Makes entries entry)
    (found : entry.FoundIn j.symbols) :
    ∃ made' k, exec (callWithin (steps + 1)) turns c entry.stmt j = .ok .normal k ∧
      HeadRan (entries ++ [entry]) made' c i k := by
  obtain ⟨value, k, ended, prepares, isMade, parts⟩ :=
    (ran.readied active).make turns steps active makes found
  have active' := prepares.active active
  set made' := Function.update made entry.key value with made'_eq
  have old : ∀ other ∈ entries, made' other.key = made other.key := fun other member =>
    Function.update_of_ne (new other member) value made
  have this : made' entry.key = value := Function.update_self entry.key value made
  have named : ∀ other ∈ entries, other.name ≠ entry.name := fun other member same =>
    absurd (later other member) (by rw [numbered_inj same]; exact Nat.lt_irrefl _)
  have set_ : Prepares c (fun name => ∃ other ∈ entries ++ [entry], other.name = name) k
      (k.setOwn c entry.name value) :=
    (Touches.setOwn active'.bound ⟨entry, by simp, rfl⟩ value).prepares
  have keeps : j.heap.Keeps (k.setOwn c entry.name value).heap := prepares.keeps.trans set_.keeps
  refine ⟨made', k.setOwn c entry.name value, active'.exec_define ended, ?_, ?_, ?_, ?_, ?_, ?_, ?_⟩
  · refine (ran.prepares.mono ?_).trans ((prepares.mono nofun).trans set_)
    rintro name ⟨other, member, is⟩
    exact ⟨other, List.mem_append_left _ member, is⟩
  · intro other member
    rcases List.mem_append.mp member with before | last
    · rw [own?_setOwn_of_ne active'.bound (named other before), prepares.kept _ id, old other before]
      exact ran.held other before
    · rw [List.mem_singleton.mp last, own?_setOwn active'.bound, this]
  · intro id
    by_cases here : LiteralKey.symbol id = entry.key
    · rw [← here] at isMade this
      exact this.trans isMade
    · exact (Function.update_of_ne here value made).trans (ran.symbol id)
  · intro ch
    by_cases here : LiteralKey.character ch = entry.key
    · rw [← here] at isMade this
      exact this.trans isMade
    · exact (Function.update_of_ne here value made).trans (ran.character ch)
  · intro other member
    rcases List.mem_append.mp member with before | last
    · rw [old other before]
      exact (ran.isMade other before).wider (.refl _) keeps
    · rw [List.mem_singleton.mp last, this]
      exact isMade.wider ran.prepares.keeps set_.keeps
  · intro other member
    rcases List.mem_append.mp member with before | last
    · rw [old other before, keeps.parts (ran.isMade other before).holds]
      exact (inOrder.makes before).parts_congr (ran.parts other before) old
    · rw [List.mem_singleton.mp last, this, set_.keeps.parts isMade.holds]
      exact makes.parts_congr parts old
  · intro one isOne other isOther same
    rcases List.mem_append.mp isOne with before | last <;>
      rcases List.mem_append.mp isOther with before' | last'
    · rw [old one before, old other before'] at same
      exact ran.distinct one before other before' same
    · rw [List.mem_singleton.mp last'] at same ⊢
      rw [old one before, this] at same
      exact (same ▸ ran.isMade one before).unique isMade
    · rw [List.mem_singleton.mp last] at same ⊢
      rw [old other before', this] at same
      exact ((same ▸ ran.isMade other before').unique isMade).symm
    · rw [List.mem_singleton.mp last, List.mem_singleton.mp last']

/-- Running the head of a unit makes its literals. -/
theorem head_ran (turns steps : Nat) (inOrder : InOrder entries) (active : Active c i)
    (found : ∀ entry ∈ entries, entry.FoundIn i.symbols) :
    ∃ made j, execBlock (callWithin (steps + 1)) turns c (entries.map Hoisted.stmt) i =
      .ok .normal j ∧ HeadRan entries made c i j := by
  induction inOrder with
  | nil => exact ⟨_, i, rfl, .nil c i⟩
  | @snoc entries entry before later new makes ih =>
      obtain ⟨made, j, ran, head⟩ := ih fun entry member => found entry (List.mem_append_left _ member)
      have symbols := head.prepares.symbols
      obtain ⟨made', k, last, head'⟩ := head.snoc turns steps
        (head.prepares.active active) before later new makes
        (symbols ▸ found entry (by simp))
      refine ⟨made', k, ?_, head'⟩
      rw [List.map_append, execBlock_append_continues ran]
      exact (execBlock_continues last).trans rfl

end Making

end LispScript
