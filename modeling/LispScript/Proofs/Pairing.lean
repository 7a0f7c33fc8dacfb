import LispScript.Machine.Evaluate
import LispScript.Proofs.Growth
import Mathlib.Data.Option.Defs
import Mathlib.Data.List.Forall2
import Mathlib.Logic.Relator

/-!
Images that are alike. Two runs of the same code need not make the same objects: one of them may make
some that nothing refers to any more. A pairing tells which objects of two images stand for one
another; but for the addresses, the images have the same in them then. Some conses can be hidden:
nothing on either side refers to them.
-/

namespace LispScript.Machine

open Discipline (getD_push getD_modify)

/-- Which objects of two images stand for one another, region by region, and the conses that are hidden
with what is in them. -/
structure Pairing where
  cells : Address → Address → Prop
  strings : Address → Address → Prop
  vectors : Address → Address → Prop
  functions : Address → Address → Prop
  bundles : Address → Address → Prop
  transfers : Address → Address → Prop
  scopes : Address → Address → Prop
  /-- The scopes of the first image that stand for the scope around them, to which they add nothing
  but their `arguments`. -/
  inner : Address → Address → Prop
  hidden : Address → Option Cell

namespace Pairing

variable {m m' : Pairing}

section Relations

/-- The values stand for one another. -/
inductive Same (m : Pairing) : Value → Value → Prop where
  | nil : Same m .nil .nil
  | number (n : Float) : Same m (.number n) (.number n)
  | character (c : Char) : Same m (.character c) (.character c)
  | string {a b : Address} (text : String) (held : m.strings a b) :
      Same m (.string a text) (.string b text)
  | symbol (id : SymbolId) : Same m (.symbol id) (.symbol id)
  | cons {a b : Address} (held : m.cells a b) : Same m (.cons a) (.cons b)
  | vector {a b : Address} (held : m.vectors a b) : Same m (.vector a) (.vector b)
  | function {a b : Address} (held : m.functions a b) : Same m (.function a) (.function b)
  | package (id : PackageId) : Same m (.package id) (.package id)
  | bool (b : Bool) : Same m (.bool b) (.bool b)
  | undefined : Same m .undefined .undefined
  | bundle {a b : Address} (held : m.bundles a b) : Same m (.bundle a) (.bundle b)
  | transfer {a b : Address} (held : m.transfers a b) : Same m (.transfer a) (.transfer b)

/-- Code that has to do with no `arguments` but those of its own functions means the same in these
scopes. -/
inductive Loose (m : Pairing) : Address → Address → Prop where
  | scopes {c d : Address} (held : m.scopes c d) : Loose m c d
  | inner {c d p : Address} (within : m.inner c p) (around : Loose m p d) : Loose m c d

abbrev SameList (m : Pairing) : List Value → List Value → Prop := List.Forall₂ m.Same

abbrev SameSlot (m : Pairing) : Option Value → Option Value → Prop := Option.Rel m.Same

structure SameCell (m : Pairing) (x y : Cell) : Prop where
  car : m.Same x.car y.car
  cdr : m.Same x.cdr y.cdr

def SameItems (m : Pairing) (x y : Array Value) : Prop := m.SameList x.toList y.toList

inductive SameCallable (m : Pairing) : Callable → Callable → Prop where
  | closure {c d : Address} (params : List String) (body : List Script.Stmt) (around : m.Loose c d) :
      SameCallable m (.closure params body c) (.closure params body d)
  | native (n : Script.Native) : SameCallable m (.native n) (.native n)
  | primitive (p : Primitive) : SameCallable m (.primitive p) (.primitive p)

def SameProperty (m : Pairing) (x y : String × Value) : Prop := x.1 = y.1 ∧ m.Same x.2 y.2

structure SameFunction (m : Pairing) (f g : FunctionObject) : Prop where
  callable : m.SameCallable f.callable g.callable
  properties : List.Forall₂ m.SameProperty f.properties g.properties

structure SameTransfer (m : Pairing) (x y : Transfer) : Prop where
  kind : x.kind = y.kind
  label : x.label = y.label
  target : m.Same x.target y.target
  payload : m.Same x.payload y.payload

/-- What stands around a function's scope may differ by scopes that stand for those around them. -/
structure SameScope (m : Pairing) (x y : Scope) : Prop where
  isFunction : x.isFunction = y.isFunction
  vars : ∀ name : String, m.SameSlot x.vars[name]? y.vars[name]?
  parents : Option.Rel (fun p q => m.Loose p q ∧ (x.isFunction = false → m.scopes p q))
    x.parent y.parent
  arguments : x.isFunction = true → x.parent.isSome = true → x.vars["arguments"]?.isSome = true

structure SameSymbol (m : Pairing) (x y : Symbol) : Prop where
  name : x.name = y.name
  home : x.home = y.home
  value : m.SameSlot x.value y.value
  function : m.SameSlot x.function y.function
  plist : m.Same x.plist y.plist

/-- A later pairing, which has more objects. -/
structure Grows (m m' : Pairing) : Prop where
  cells : ∀ a b, m.cells a b → m'.cells a b
  strings : ∀ a b, m.strings a b → m'.strings a b
  vectors : ∀ a b, m.vectors a b → m'.vectors a b
  functions : ∀ a b, m.functions a b → m'.functions a b
  bundles : ∀ a b, m.bundles a b → m'.bundles a b
  transfers : ∀ a b, m.transfers a b → m'.transfers a b
  scopes : ∀ a b, m.scopes a b → m'.scopes a b
  inner : ∀ a b, m.inner a b → m'.inner a b
  hidden : m'.hidden = m.hidden

end Relations

section Growth

theorem Grows.refl (m : Pairing) : m.Grows m :=
  ⟨fun _ _ held => held, fun _ _ held => held, fun _ _ held => held, fun _ _ held => held,
    fun _ _ held => held, fun _ _ held => held, fun _ _ held => held, fun _ _ held => held, rfl⟩

theorem Grows.trans {m'' : Pairing} (first : m.Grows m') (second : m'.Grows m'') : m.Grows m'' where
  cells a b held := second.cells a b (first.cells a b held)
  strings a b held := second.strings a b (first.strings a b held)
  vectors a b held := second.vectors a b (first.vectors a b held)
  functions a b held := second.functions a b (first.functions a b held)
  bundles a b held := second.bundles a b (first.bundles a b held)
  transfers a b held := second.transfers a b (first.transfers a b held)
  scopes a b held := second.scopes a b (first.scopes a b held)
  inner a b held := second.inner a b (first.inner a b held)
  hidden := second.hidden.trans first.hidden

theorem Same.mono {v w : Value} (same : m.Same v w) (grows : m.Grows m') : m'.Same v w := by
  cases same with
  | string text held => exact .string text (grows.strings _ _ held)
  | cons held => exact .cons (grows.cells _ _ held)
  | vector held => exact .vector (grows.vectors _ _ held)
  | function held => exact .function (grows.functions _ _ held)
  | bundle held => exact .bundle (grows.bundles _ _ held)
  | transfer held => exact .transfer (grows.transfers _ _ held)
  | _ => constructor

theorem Loose.mono {c d : Address} (loose : m.Loose c d) (grows : m.Grows m') : m'.Loose c d := by
  induction loose with
  | scopes held => exact .scopes (grows.scopes _ _ held)
  | inner within around ih => exact .inner (grows.inner _ _ within) ih

theorem SameList.mono {v w : List Value} (same : m.SameList v w) (grows : m.Grows m') :
    m'.SameList v w :=
  same.imp fun _ _ same => same.mono grows

theorem rel_imp {α : Type} {related wider : α → α → Prop} {x y : Option α}
    (held : Option.Rel related x y) (imp : ∀ a b, related a b → wider a b) : Option.Rel wider x y := by
  cases held with
  | some held => exact .some (imp _ _ held)
  | none => exact .none

theorem SameSlot.mono {v w : Option Value} (same : m.SameSlot v w) (grows : m.Grows m') :
    m'.SameSlot v w :=
  rel_imp same fun _ _ same => same.mono grows

theorem SameCell.mono {x y : Cell} (same : m.SameCell x y) (grows : m.Grows m') : m'.SameCell x y :=
  ⟨same.car.mono grows, same.cdr.mono grows⟩

theorem SameCallable.mono {f g : Callable} (same : m.SameCallable f g) (grows : m.Grows m') :
    m'.SameCallable f g := by
  cases same with
  | closure params body around => exact .closure params body (around.mono grows)
  | native n => exact .native n
  | primitive p => exact .primitive p

theorem SameFunction.mono {f g : FunctionObject} (same : m.SameFunction f g) (grows : m.Grows m') :
    m'.SameFunction f g :=
  ⟨same.callable.mono grows, same.properties.imp fun _ _ same => ⟨same.1, same.2.mono grows⟩⟩

theorem SameTransfer.mono {x y : Transfer} (same : m.SameTransfer x y) (grows : m.Grows m') :
    m'.SameTransfer x y :=
  ⟨same.kind, same.label, same.target.mono grows, same.payload.mono grows⟩

theorem SameScope.mono {x y : Scope} (same : m.SameScope x y) (grows : m.Grows m') :
    m'.SameScope x y :=
  ⟨same.isFunction, fun name => (same.vars name).mono grows,
    rel_imp same.parents fun _ _ held =>
      ⟨held.1.mono grows, fun shared => grows.scopes _ _ (held.2 shared)⟩, same.arguments⟩

theorem SameSymbol.mono {x y : Symbol} (same : m.SameSymbol x y) (grows : m.Grows m') :
    m'.SameSymbol x y :=
  ⟨same.name, same.home, same.value.mono grows, same.function.mono grows, same.plist.mono grows⟩

end Growth

section Regions

variable {α : Type} {related : Address → Address → Prop} {same same' : α → α → Prop}
  {xs ys : Array α} {x y : α} {a b : Address}

/-- Objects of two regions that stand for one another are the same. -/
structure Paired (related : Address → Address → Prop) (same : α → α → Prop) (xs ys : Array α) :
    Prop where
  same : ∀ a b, related a b → ∃ x y, xs[a]? = some x ∧ ys[b]? = some y ∧ same x y
  unique : Relator.BiUnique related

/-- A relation with one more pair. -/
def Adjoin (related : Address → Address → Prop) (x y : Address) : Address → Address → Prop :=
  fun a b => related a b ∨ a = x ∧ b = y

theorem BiUnique.adjoin {p q : Address} (unique : Relator.BiUnique related)
    (left : ∀ b, ¬ related p b) (right : ∀ a, ¬ related a q) :
    Relator.BiUnique (Adjoin related p q) := by
  constructor
  · rintro a b c (first | ⟨rfl, rfl⟩) (second | ⟨rfl, same⟩)
    · exact unique.1 first second
    · exact absurd (same ▸ first) (right a)
    · exact absurd second (right b)
    · rfl
  · rintro a b c (first | ⟨rfl, rfl⟩) (second | ⟨same, rfl⟩)
    · exact unique.2 first second
    · exact absurd (same ▸ first) (left b)
    · exact absurd second (left c)
    · rfl

theorem BiUnique.beq (unique : Relator.BiUnique related) {a' b' : Address} (held : related a b)
    (held' : related a' b') : (a == a') = (b == b') := by
  rw [Bool.eq_iff_iff, beq_iff_eq, beq_iff_eq]
  exact ⟨fun same => unique.2 held (same ▸ held'), fun same => unique.1 held (same ▸ held')⟩

namespace Paired

variable (paired : Paired related same xs ys)

include paired

theorem mono (wider : ∀ x y, same x y → same' x y) : Paired related same' xs ys :=
  ⟨fun a b held =>
    have ⟨x, y, left, right, same⟩ := paired.same a b held
    ⟨x, y, left, right, wider x y same⟩, paired.unique⟩

theorem lt (held : related a b) : a < xs.size ∧ b < ys.size := by
  obtain ⟨x, y, left, right, -⟩ := paired.same a b held
  exact ⟨(Array.getElem?_eq_some_iff.mp left).1, (Array.getElem?_eq_some_iff.mp right).1⟩

theorem getD (held : related a b) (fallback fallback' : α) :
    same (xs.getD a fallback) (ys.getD b fallback') := by
  obtain ⟨x, y, left, right, same⟩ := paired.same a b held
  rwa [Array.getD_eq_getD_getElem?, Array.getD_eq_getD_getElem?, left, right]

theorem push (new : same x y) :
    Paired (Adjoin related xs.size ys.size) same (xs.push x) (ys.push y) := by
  refine ⟨fun a b held => ?_, BiUnique.adjoin paired.unique
    (fun b held => Nat.lt_irrefl _ (paired.lt held).1)
    fun a held => Nat.lt_irrefl _ (paired.lt held).2⟩
  rcases held with old | ⟨rfl, rfl⟩
  · obtain ⟨x, y, left, right, same⟩ := paired.same a b old
    obtain ⟨lower, lower'⟩ := paired.lt old
    refine ⟨x, y, ?_, ?_, same⟩
    · rwa [Array.getElem?_push, if_neg (Nat.ne_of_lt lower)]
    · rwa [Array.getElem?_push, if_neg (Nat.ne_of_lt lower')]
  · exact ⟨x, y, Array.getElem?_push_size, Array.getElem?_push_size, new⟩

theorem modify (held : related a b) {f g : α → α} (changed : ∀ x y, same x y → same (f x) (g y)) :
    Paired related same (xs.modify a f) (ys.modify b g) := by
  refine ⟨fun c d others => ?_, paired.unique⟩
  obtain ⟨x, y, left, right, same⟩ := paired.same c d others
  rw [Array.getElem?_modify, Array.getElem?_modify]
  by_cases here : a = c
  · subst here
    obtain rfl := paired.unique.2 held others
    rw [if_pos rfl, if_pos rfl, left, right]
    exact ⟨f x, g y, rfl, rfl, changed x y same⟩
  · rw [if_neg here, if_neg fun there : b = d => here (paired.unique.1 held (there ▸ others))]
    exact ⟨x, y, left, right, same⟩

end Paired

end Regions

section Images

/-- A scope stands after those around it. -/
def ParentsBefore (heap : Heap) : Prop := ∀ c p, (heap.scope c).parent = some p → p < c

/-- Objects of two heaps that stand for one another by the first pairing are the same by the second. -/
structure AlikeHeaps (m n : Pairing) (h k : Heap) : Prop where
  cellCount : h.cells.size = k.cells.size
  cells : Paired m.cells n.SameCell h.cells k.cells
  hidden : ∀ a cell, m.hidden a = some cell →
    h.cells[a]? = some cell ∧ k.cells[a]? = some cell ∧ ∀ b, ¬ m.cells a b ∧ ¬ m.cells b a
  strings : ∀ a b, m.strings a b → a < h.strings ∧ b < k.strings
  uniqueStrings : Relator.BiUnique m.strings
  vectors : Paired m.vectors n.SameItems h.vectors k.vectors
  functions : Paired m.functions n.SameFunction h.functions k.functions
  natives : ∀ native, m.functions (Image.nativeAddress native) (Image.nativeAddress native)
  bundles : Paired m.bundles n.SameList h.bundles k.bundles
  transfers : Paired m.transfers n.SameTransfer h.transfers k.transfers
  scopes : Paired m.scopes n.SameScope h.scopes k.scopes
  parentsLeft : ParentsBefore h
  parentsRight : ParentsBefore k
  inner : ∀ c p, m.inner c p → c < h.scopes.size ∧ (h.scope c).parent = some p ∧
    (∀ name : String, name ≠ "arguments" → (h.scope c).vars[name]? = none) ∧ ∀ d, ¬ m.scopes c d

/-- Symbol tables that differ in the slots of symbols only. -/
structure AlikeTables (m : Pairing) (t u : SymbolTable) : Prop where
  packages : t.packages = u.packages
  packageNames : t.packageNames = u.packageNames
  current : t.current = u.current
  generated : t.generated = u.generated
  size : t.symbols.size = u.symbols.size
  symbols : ∀ id, m.SameSymbol (t.symbol id) (u.symbol id)

structure Alike (m : Pairing) (i j : Image) : Prop where
  symbols : m.AlikeTables i.symbols j.symbols
  heap : m.AlikeHeaps m i.heap j.heap
  depth : i.depth = j.depth
  depthLimit : i.depthLimit = j.depthLimit

theorem AlikeTables.mono {t u : SymbolTable} (alike : m.AlikeTables t u) (grows : m.Grows m') :
    m'.AlikeTables t u :=
  { alike with symbols := fun id => (alike.symbols id).mono grows }

theorem AlikeHeaps.mono {n n' : Pairing} {h k : Heap} (alike : m.AlikeHeaps n h k)
    (grows : n.Grows n') : m.AlikeHeaps n' h k :=
  { alike with
    cells := alike.cells.mono fun _ _ same => same.mono grows
    vectors := alike.vectors.mono fun _ _ same => same.mono grows
    functions := alike.functions.mono fun _ _ same => same.mono grows
    bundles := alike.bundles.mono fun _ _ same => same.mono grows
    transfers := alike.transfers.mono fun _ _ same => same.mono grows
    scopes := alike.scopes.mono fun _ _ same => same.mono grows }

end Images

section Objects

variable {n : Pairing} {h k : Heap} {a b c d : Address} {v w v' w' : Value} {items items' : List Value}

/-- Values are identical just where those that they stand for are. -/
theorem AlikeHeaps.eql (alike : m.AlikeHeaps n h k) (first : m.Same v w) (second : m.Same v' w') :
    v.eql v' = w.eql w' := by
  cases first with
  | string text held =>
      cases second with
      | string text' held' => exact BiUnique.beq alike.uniqueStrings held held'
      | _ => rfl
  | cons held =>
      cases second with
      | cons held' => exact BiUnique.beq alike.cells.unique held held'
      | _ => rfl
  | vector held =>
      cases second with
      | vector held' => exact BiUnique.beq alike.vectors.unique held held'
      | _ => rfl
  | function held =>
      cases second with
      | function held' => exact BiUnique.beq alike.functions.unique held held'
      | _ => rfl
  | bundle held =>
      cases second with
      | bundle held' => exact BiUnique.beq alike.bundles.unique held held'
      | _ => rfl
  | transfer held =>
      cases second with
      | transfer held' => exact BiUnique.beq alike.transfers.unique held held'
      | _ => rfl
  | _ => cases second <;> rfl

theorem AlikeHeaps.strictEq (alike : m.AlikeHeaps n h k) (first : m.Same v w)
    (second : m.Same v' w') : v.strictEq v' = w.strictEq w' := by
  have eql := alike.eql first second
  cases first <;> cases second <;> first | rfl | exact eql

theorem Same.ofSymbol (id : SymbolId) : m.Same (.ofSymbol id) (.ofSymbol id) := by
  rw [Value.ofSymbol]
  split
  · exact .nil
  · exact .symbol id

theorem Same.ofBool (b : Bool) : m.Same (.ofBool b) (.ofBool b) := by
  cases b with
  | true => exact .symbol _
  | false => exact .nil

theorem Same.truthy (same : m.Same v w) : v.truthy = w.truthy := by cases same <;> rfl

theorem Same.asSymbol? (same : m.Same v w) : v.asSymbol? = w.asSymbol? := by cases same <;> rfl

theorem Same.isNil (same : m.Same v w) : v.isNil = w.isNil := by cases same <;> rfl

theorem AlikeHeaps.cell (alike : m.AlikeHeaps n h k) (held : m.cells a b) :
    n.SameCell (h.cell a) (k.cell b) := alike.cells.getD held _ _

theorem AlikeHeaps.vector (alike : m.AlikeHeaps n h k) (held : m.vectors a b) :
    n.SameItems (h.vector a) (k.vector b) := alike.vectors.getD held _ _

theorem AlikeHeaps.function (alike : m.AlikeHeaps n h k) (held : m.functions a b) :
    n.SameFunction (h.function a) (k.function b) := alike.functions.getD held _ _

theorem AlikeHeaps.bundle (alike : m.AlikeHeaps n h k) (held : m.bundles a b) :
    n.SameList (h.bundle a) (k.bundle b) := alike.bundles.getD held _ _

theorem AlikeHeaps.transfer (alike : m.AlikeHeaps n h k) (held : m.transfers a b) :
    n.SameTransfer (h.transfer a) (k.transfer b) := alike.transfers.getD held _ _

theorem AlikeHeaps.scope (alike : m.AlikeHeaps n h k) (held : m.scopes c d) :
    n.SameScope (h.scope c) (k.scope d) := alike.scopes.getD held _ _

/-- What a step on two heaps comes to that may make new objects. -/
def Made (m : Pairing) {α : Type} (related : Pairing → α → α → Prop) (x y : α × Heap) : Prop :=
  ∃ m', m.Grows m' ∧ m'.AlikeHeaps m' x.2 y.2 ∧ related m' x.1 y.1

/-- What is hidden stays hidden when other conses are made or changed. -/
theorem AlikeHeaps.hidden_of (alike : m.AlikeHeaps n h k) {xs ys : Array Cell}
    {related : Address → Address → Prop}
    (left : ∀ a, (∀ b, ¬ m.cells a b) → a < h.cells.size → xs[a]? = h.cells[a]?)
    (right : ∀ b, (∀ a, ¬ m.cells a b) → b < k.cells.size → ys[b]? = k.cells[b]?)
    (apart : ∀ a b, related a b → m.cells a b ∨ a = h.cells.size ∧ b = k.cells.size) :
    ∀ a cell, m.hidden a = some cell →
      xs[a]? = some cell ∧ ys[a]? = some cell ∧ ∀ b, ¬ related a b ∧ ¬ related b a := by
  intro a cell held
  obtain ⟨before, before', unrelated⟩ := alike.hidden a cell held
  obtain ⟨lower, -⟩ := Array.getElem?_eq_some_iff.mp before
  obtain ⟨lower', -⟩ := Array.getElem?_eq_some_iff.mp before'
  refine ⟨(left a (fun b => (unrelated b).1) lower).trans before,
    (right a (fun b => (unrelated b).2) lower').trans before', fun b => ⟨fun held => ?_, fun held => ?_⟩⟩
  · rcases apart a b held with old | ⟨same, -⟩
    · exact (unrelated b).1 old
    · exact Nat.ne_of_lt lower same
  · rcases apart b a held with old | ⟨-, same⟩
    · exact (unrelated b).2 old
    · exact Nat.ne_of_lt lower' same

theorem AlikeHeaps.allocCell (alike : m.AlikeHeaps m h k) (first : m.Same v w)
    (rest : m.Same v' w') : m.Made Same (h.allocCell v v') (k.allocCell w w') := by
  let m' : Pairing := { m with cells := Adjoin m.cells h.cells.size k.cells.size }
  have grows : m.Grows m' := { Grows.refl m with cells := fun _ _ => .inl }
  have alike := alike.mono grows
  have new : m'.SameCell ⟨v, v'⟩ ⟨w, w'⟩ := ⟨first.mono grows, rest.mono grows⟩
  refine ⟨m', grows, { alike with
    cells := alike.cells.push new
    cellCount := ?_
    hidden := alike.hidden_of (fun a _ lower => ?_) (fun b _ lower => ?_) fun _ _ held => held },
    .cons (.inr ⟨rfl, rfl⟩)⟩
  · simp only [Heap.allocCell, Array.size_push, alike.cellCount]
  · exact Array.getElem?_push.trans (if_neg (Nat.ne_of_lt lower))
  · exact Array.getElem?_push.trans (if_neg (Nat.ne_of_lt lower))

/-- The conses change in the same way. -/
theorem AlikeHeaps.modifyCell (alike : m.AlikeHeaps m h k) (held : m.cells a b) {f g : Cell → Cell}
    (changed : ∀ x y, m.SameCell x y → m.SameCell (f x) (g y)) :
    m.AlikeHeaps m { h with cells := h.cells.modify a f } { k with cells := k.cells.modify b g } := by
  refine { alike with
    cells := alike.cells.modify held changed
    cellCount := ?_
    hidden := alike.hidden_of (fun c free lower => ?_) (fun c free lower => ?_) fun _ _ => .inl }
  · simp only [Array.size_modify, alike.cellCount]
  · exact (Array.getElem?_modify ..).trans (if_neg fun same : a = c => free b (same ▸ held))
  · exact (Array.getElem?_modify ..).trans (if_neg fun same : b = c => free a (same ▸ held))

theorem AlikeHeaps.setCar (alike : m.AlikeHeaps m h k) (held : m.cells a b) (same : m.Same v w) :
    m.AlikeHeaps m (h.setCar a v) (k.setCar b w) :=
  alike.modifyCell held fun _ _ old => ⟨same, old.cdr⟩

theorem AlikeHeaps.setCdr (alike : m.AlikeHeaps m h k) (held : m.cells a b) (same : m.Same v w) :
    m.AlikeHeaps m (h.setCdr a v) (k.setCdr b w) :=
  alike.modifyCell held fun _ _ old => ⟨old.car, same⟩

theorem Made.bind {α β : Type} {related : Pairing → α → α → Prop} {wanted : Pairing → β → β → Prop}
    {x y : α × Heap} {f g : α × Heap → β × Heap} (made : m.Made related x y)
    (rest : ∀ m', m.Grows m' → m'.AlikeHeaps m' x.2 y.2 → related m' x.1 y.1 →
      m'.Made wanted (f x) (g y)) : m.Made wanted (f x) (g y) := by
  obtain ⟨m', grows, alike, held⟩ := made
  obtain ⟨m'', more, alike, held⟩ := rest m' grows alike held
  exact ⟨m'', grows.trans more, alike, held⟩

theorem AlikeHeaps.allocListWithTail (alike : m.AlikeHeaps m h k) (same : m.SameList items items')
    (rest : m.Same v w) :
    m.Made Same (h.allocListWithTail items v) (k.allocListWithTail items' w) := by
  induction same with
  | nil => exact ⟨m, .refl m, alike, rest⟩
  | cons first _ ih =>
      exact Made.bind (f := fun x => x.2.allocCell _ x.1) (g := fun y => y.2.allocCell _ y.1) ih
        fun m' grows alike rest => alike.allocCell (first.mono grows) rest

theorem AlikeHeaps.allocList (alike : m.AlikeHeaps m h k) (same : m.SameList items items') :
    m.Made Same (h.allocList items) (k.allocList items') :=
  alike.allocListWithTail same .nil

theorem AlikeHeaps.allocVector (alike : m.AlikeHeaps m h k) {items items' : Array Value}
    (same : m.SameItems items items') :
    m.Made Same (h.allocVector items) (k.allocVector items') := by
  let m' : Pairing := { m with vectors := Adjoin m.vectors h.vectors.size k.vectors.size }
  have grows : m.Grows m' := { Grows.refl m with vectors := fun _ _ => .inl }
  have alike := alike.mono grows
  exact ⟨m', grows, { alike with vectors := alike.vectors.push (SameList.mono same grows) },
    .vector (.inr ⟨rfl, rfl⟩)⟩

theorem AlikeHeaps.allocFunction (alike : m.AlikeHeaps m h k) {callable callable' : Callable}
    (same : m.SameCallable callable callable') :
    m.Made Same (h.allocFunction callable) (k.allocFunction callable') := by
  let m' : Pairing := { m with functions := Adjoin m.functions h.functions.size k.functions.size }
  have grows : m.Grows m' := { Grows.refl m with functions := fun _ _ => .inl }
  have alike := alike.mono grows
  have new : m'.SameFunction { callable } { callable := callable' } := ⟨same.mono grows, .nil⟩
  exact ⟨m', grows, { alike with
    functions := alike.functions.push new, natives := fun native => .inl (alike.natives native) },
    .function (.inr ⟨rfl, rfl⟩)⟩

theorem AlikeHeaps.allocBundle (alike : m.AlikeHeaps m h k) (same : m.SameList items items') :
    m.Made Same (h.allocBundle items) (k.allocBundle items') := by
  let m' : Pairing := { m with bundles := Adjoin m.bundles h.bundles.size k.bundles.size }
  have grows : m.Grows m' := { Grows.refl m with bundles := fun _ _ => .inl }
  have alike := alike.mono grows
  exact ⟨m', grows, { alike with bundles := alike.bundles.push (same.mono grows) },
    .bundle (.inr ⟨rfl, rfl⟩)⟩

theorem AlikeHeaps.allocTransfer (alike : m.AlikeHeaps m h k) {x y : Transfer}
    (same : m.SameTransfer x y) : m.Made Same (h.allocTransfer x) (k.allocTransfer y) := by
  let m' : Pairing := { m with transfers := Adjoin m.transfers h.transfers.size k.transfers.size }
  have grows : m.Grows m' := { Grows.refl m with transfers := fun _ _ => .inl }
  have alike := alike.mono grows
  exact ⟨m', grows, { alike with transfers := alike.transfers.push (same.mono grows) },
    .transfer (.inr ⟨rfl, rfl⟩)⟩

theorem AlikeHeaps.allocString (alike : m.AlikeHeaps m h k) (text : String) :
    m.Made Same (h.allocString text) (k.allocString text) := by
  let m' : Pairing := { m with strings := Adjoin m.strings h.strings k.strings }
  have grows : m.Grows m' := { Grows.refl m with strings := fun _ _ => .inl }
  have alike := alike.mono grows
  refine ⟨m', grows, { alike with strings := ?_, uniqueStrings := ?_ },
    .string text (.inr ⟨rfl, rfl⟩)⟩
  · rintro a b (old | ⟨rfl, rfl⟩)
    · obtain ⟨lower, lower'⟩ := alike.strings a b old
      exact ⟨Nat.lt_succ_of_lt lower, Nat.lt_succ_of_lt lower'⟩
    · exact ⟨Nat.lt_succ_self _, Nat.lt_succ_self _⟩
  · exact BiUnique.adjoin alike.uniqueStrings
      (fun b held => Nat.lt_irrefl _ (alike.strings _ b held).1)
      fun a held => Nat.lt_irrefl _ (alike.strings a _ held).2

theorem forall₂_set {α : Type} {related : α → α → Prop} {xs ys : List α}
    (all : List.Forall₂ related xs ys) (position : Nat) {x y : α} (new : related x y) :
    List.Forall₂ related (xs.set position x) (ys.set position y) := by
  induction all generalizing position with
  | nil => exact .nil
  | cons first rest ih =>
      cases position with
      | zero => exact .cons new rest
      | succ position => exact .cons first (ih position)

theorem AlikeHeaps.setElement (alike : m.AlikeHeaps m h k) (held : m.vectors a b) (position : Nat)
    (same : m.Same v w) :
    m.AlikeHeaps m (h.setElement a position v) (k.setElement b position w) := by
  let fill (value : Value) (items : Array Value) : Array Value :=
    (items ++ Array.replicate (position + 1 - items.size) Value.undefined).setIfInBounds position value
  have filled (x y : Array Value) (items : m.SameItems x y) : m.SameItems (fill v x) (fill w y) := by
    have sizes : x.size = y.size := List.Forall₂.length_eq items
    have undefined : m.SameList (List.replicate (position + 1 - y.size) .undefined)
        (List.replicate (position + 1 - y.size) .undefined) :=
      List.forall₂_same.mpr fun value member => List.eq_of_mem_replicate member ▸ .undefined
    have longer : m.SameList _ _ := List.rel_append items undefined
    rw [SameItems, Array.toList_setIfInBounds, Array.toList_setIfInBounds, Array.toList_append,
      Array.toList_append, Array.toList_replicate, Array.toList_replicate, sizes]
    exact forall₂_set longer position same
  have changed : Paired m.vectors m.SameItems (h.vectors.modify a (fill v)) (k.vectors.modify b (fill w)) :=
    alike.vectors.modify held filled
  exact { alike with vectors := changed }

theorem AlikeHeaps.setProperty (alike : m.AlikeHeaps m h k) (held : m.functions a b)
    (property : String) (same : m.Same v w) :
    m.AlikeHeaps m (h.setProperty a property v) (k.setProperty b property w) := by
  have associated {xs ys : List (String × Value)} (old : List.Forall₂ m.SameProperty xs ys) :
      List.Forall₂ m.SameProperty (Heap.associate property v xs) (Heap.associate property w ys) := by
    induction old with
    | nil => exact .cons ⟨rfl, same⟩ .nil
    | @cons x y xs ys first rest ih =>
        obtain ⟨key, old⟩ := x
        obtain ⟨key', old'⟩ := y
        obtain ⟨rfl, values⟩ := first
        rw [Heap.associate, Heap.associate]
        split
        · exact .cons ⟨rfl, same⟩ rest
        · exact .cons ⟨rfl, values⟩ ih
  let put (value : Value) (function : FunctionObject) : FunctionObject :=
    { function with properties := Heap.associate property value function.properties }
  have changed : Paired m.functions m.SameFunction (h.functions.modify a (put v))
      (k.functions.modify b (put w)) :=
    alike.functions.modify held fun _ _ old => ⟨old.callable, associated old.properties⟩
  exact { alike with functions := changed }

/-- A new scope on each side. -/
theorem AlikeHeaps.allocScope (alike : m.AlikeHeaps m h k) {x y : Scope} (same : m.SameScope x y)
    (left : ∀ p, x.parent = some p → p < h.scopes.size)
    (right : ∀ p, y.parent = some p → p < k.scopes.size) :
    m.Made (fun m' => m'.scopes) (h.allocScope x) (k.allocScope y) := by
  let m' : Pairing := { m with scopes := Adjoin m.scopes h.scopes.size k.scopes.size }
  have grows : m.Grows m' := { Grows.refl m with scopes := fun _ _ => .inl }
  have alike := alike.mono grows
  have scopeAt (heap : Heap) (scope : Scope) (c : Address) : (heap.allocScope scope).2.scope c =
      if c = heap.scopes.size then scope else heap.scope c := getD_push _ _ _ c
  have parents {heap : Heap} {scope : Scope} (ordered : ParentsBefore heap)
      (bound : ∀ p, scope.parent = some p → p < heap.scopes.size) :
      ParentsBefore (heap.allocScope scope).2 := by
    intro c p held
    rw [scopeAt] at held
    split at held
    · rename_i last
      exact last ▸ bound p held
    · exact ordered c p held
  refine ⟨m', grows, { alike with
    scopes := alike.scopes.push (same.mono grows)
    parentsLeft := parents alike.parentsLeft left
    parentsRight := parents alike.parentsRight right
    inner := fun c p within => ?_ }, .inr ⟨rfl, rfl⟩⟩
  obtain ⟨lower, parent, only, apart⟩ := alike.inner c p within
  have older : c ≠ h.scopes.size := Nat.ne_of_lt lower
  rw [scopeAt, if_neg older]
  refine ⟨Nat.lt_of_lt_of_eq (Nat.lt_succ_of_lt lower) (Array.size_push ..).symm, parent, only, ?_⟩
  rintro d (old | ⟨same, -⟩)
  · exact apart d old
  · exact older same

theorem AlikeHeaps.bindVariable (alike : m.AlikeHeaps m h k) (held : m.scopes c d) (name : String)
    (same : m.Same v w) : m.AlikeHeaps m (h.bindVariable c name v) (k.bindVariable d name w) := by
  obtain ⟨left, right⟩ := alike.scopes.lt held
  have scopeAt {heap : Heap} {c : Address} {value : Value} (bound : c < heap.scopes.size) (b : Address) :
      (heap.bindVariable c name value).scope b = if b = c then
        { heap.scope c with vars := (heap.scope c).vars.insert name value } else heap.scope b :=
    getD_modify _ _ _ b bound
  have parent {heap : Heap} {c : Address} {value : Value} (bound : c < heap.scopes.size) (b : Address) :
      ((heap.bindVariable c name value).scope b).parent = (heap.scope b).parent := by
    rw [scopeAt bound]
    split
    · rename_i here
      rw [here]
    · rfl
  let put (value : Value) (scope : Scope) : Scope :=
    { scope with vars := scope.vars.insert name value }
  have changed : Paired m.scopes m.SameScope (h.scopes.modify c (put v)) (k.scopes.modify d (put w)) := by
    refine alike.scopes.modify held fun x y old =>
      ⟨old.isFunction, fun other => ?_, old.parents, fun isFunction nested => ?_⟩
    · simp only [put, Std.TreeMap.getElem?_insert]
      split
      · exact .some same
      · exact old.vars other
    · simp only [put, Std.TreeMap.getElem?_insert]
      split
      · rfl
      · exact old.arguments isFunction nested
  refine { alike with
    scopes := changed
    parentsLeft := fun b p held => alike.parentsLeft b p (parent left b ▸ held)
    parentsRight := fun b p held => alike.parentsRight b p (parent right b ▸ held)
    inner := fun b p within => ?_ }
  obtain ⟨lower, around, only, apart⟩ := alike.inner b p within
  have other : b ≠ c := fun same => apart d (same ▸ held)
  refine ⟨Nat.lt_of_lt_of_eq lower (Array.size_modify ..).symm, (parent left b).trans around,
    fun name free => ?_, apart⟩
  rw [scopeAt left, if_neg other]
  exact only name free

end Objects

end Pairing

end LispScript.Machine
