import LispScript.Proofs.Pairing

/-!
What is read off images that are alike is the same: variables and what symbols stand for, lists,
equality and printed text.
-/

namespace LispScript.Machine.Pairing

variable {m : Pairing} {h k : Heap}

section Scopes

variable {c d : Nat} {name : String} {p : Scope → Bool} {limit limit' : Nat}

/-- Where a variable is found is where it is kept. -/
theorem findVariableWithin_eq (heap : Heap) (name : String) (limit : Nat) (c : Address) :
    heap.findVariableWithin name limit c =
      (heap.findScopeWithin (·.vars.contains name) limit c).bind fun owner =>
        (heap.scope owner).vars[name]? := by
  induction limit generalizing c with
  | zero => rfl
  | succ limit ih =>
      rw [Heap.findVariableWithin, Heap.findScopeWithin, Std.TreeMap.contains_eq_isSome_getElem?]
      cases found : (heap.scope c).vars[name]? with
      | some value => simp [found]
      | none =>
          simp only [Option.isSome_none, Bool.false_eq_true, if_false]
          cases (heap.scope c).parent with
          | some parent => exact ih parent
          | none => rfl

/-- A look-up that passes the scopes that stand for those around them. -/
theorem AlikeHeaps.findScope_loose (alike : m.AlikeHeaps m h k)
    (same : ∀ x y, m.SameScope x y → p x = p y) (skips : ∀ c q, m.inner c q → p (h.scope c) = false)
    (loose : m.Loose c d) (deep : c < limit) (deep' : d < limit') :
    Option.Rel m.scopes (h.findScopeWithin p limit c) (k.findScopeWithin p limit' d) := by
  induction c using Nat.strongRecOn generalizing d limit limit' with
  | ind c ih =>
      obtain ⟨limit, rfl⟩ : ∃ n, limit = n + 1 := ⟨limit - 1, by omega⟩
      cases loose with
      | scopes held =>
          obtain ⟨limit', rfl⟩ : ∃ n, limit' = n + 1 := ⟨limit' - 1, by omega⟩
          have scopes := alike.scope held
          rw [Heap.findScopeWithin, Heap.findScopeWithin, same _ _ scopes]
          split
          · exact .some held
          · have parents := scopes.parents
            have before := alike.parentsLeft c
            have before' := alike.parentsRight d
            generalize (h.scope c).parent = q at parents before ⊢
            generalize (k.scope d).parent = q' at parents before' ⊢
            cases parents with
            | none => exact .none
            | some around =>
                have lower := before _ rfl
                have lower' := before' _ rfl
                exact ih _ lower around.1 (Nat.lt_of_lt_of_le lower (Nat.le_of_lt_succ deep))
                  (Nat.lt_of_lt_of_le lower' (Nat.le_of_lt_succ deep'))
      | inner within around =>
          obtain ⟨-, parent, -, -⟩ := alike.inner c _ within
          have lower := alike.parentsLeft c _ parent
          rw [Heap.findScopeWithin, skips c _ within, parent]
          exact ih _ lower around (Nat.lt_of_lt_of_le lower (Nat.le_of_lt_succ deep)) deep'

/-- A look-up that does not leave functions. -/
theorem AlikeHeaps.findScope_scopes (alike : m.AlikeHeaps m h k)
    (same : ∀ x y, m.SameScope x y → p x = p y)
    (stops : ∀ x y, m.SameScope x y → x.isFunction = true → x.parent.isSome = true → p x = true)
    (held : m.scopes c d) (deep : c < limit) (deep' : d < limit') :
    Option.Rel m.scopes (h.findScopeWithin p limit c) (k.findScopeWithin p limit' d) := by
  induction c using Nat.strongRecOn generalizing d limit limit' with
  | ind c ih =>
      obtain ⟨limit, rfl⟩ : ∃ n, limit = n + 1 := ⟨limit - 1, by omega⟩
      obtain ⟨limit', rfl⟩ : ∃ n, limit' = n + 1 := ⟨limit' - 1, by omega⟩
      have scopes := alike.scope held
      have stops := stops _ _ scopes
      rw [Heap.findScopeWithin, Heap.findScopeWithin, ← same _ _ scopes]
      split
      · exact .some held
      · rename_i missing
        have parents := scopes.parents
        have before := alike.parentsLeft c
        have before' := alike.parentsRight d
        generalize (h.scope c).parent = q at parents before stops ⊢
        generalize (k.scope d).parent = q' at parents before' ⊢
        cases parents with
        | none => exact .none
        | some around =>
            have lower := before _ rfl
            have lower' := before' _ rfl
            have shared : (h.scope c).isFunction = false :=
              Bool.eq_false_iff.mpr fun isFunction => missing (stops isFunction rfl)
            exact ih _ lower (around.2 shared) (Nat.lt_of_lt_of_le lower (Nat.le_of_lt_succ deep))
              (Nat.lt_of_lt_of_le lower' (Nat.le_of_lt_succ deep'))

/-- Scopes in which a variable means the same. -/
def Sees (m : Pairing) (c d : Address) (name : String) : Prop :=
  m.scopes c d ∨ m.Loose c d ∧ name ≠ "arguments"

theorem SameScope.contains {x y : Scope} (same : m.SameScope x y) (name : String) :
    x.vars.contains name = y.vars.contains name := by
  rw [Std.TreeMap.contains_eq_isSome_getElem?, Std.TreeMap.contains_eq_isSome_getElem?]
  have vars := same.vars name
  generalize x.vars[name]? = v at vars
  generalize y.vars[name]? = w at vars
  cases vars <;> rfl

theorem Loose.lt (loose : m.Loose c d) (alike : m.AlikeHeaps m h k) :
    c < h.scopes.size ∧ d < k.scopes.size := by
  induction loose with
  | scopes held => exact alike.scopes.lt held
  | inner within around ih => exact ⟨(alike.inner _ _ within).1, ih.2⟩

theorem AlikeHeaps.variableScope? (alike : m.AlikeHeaps m h k) (sees : m.Sees c d name) :
    Option.Rel m.scopes (h.variableScope? c name) (k.variableScope? d name) := by
  rcases sees with held | ⟨loose, free⟩
  · obtain ⟨deep, deep'⟩ := alike.scopes.lt held
    by_cases own : name = "arguments"
    · subst own
      exact alike.findScope_scopes (fun x y same => same.contains _) (fun x y same isFunction nested => by
        rw [Std.TreeMap.contains_eq_isSome_getElem?]
        exact same.arguments isFunction nested) held deep deep'
    · exact alike.findScope_loose (fun x y same => same.contains _) (fun b q within => by
        rw [Std.TreeMap.contains_eq_isSome_getElem?, (alike.inner b q within).2.2.1 name own]
        rfl) (.scopes held) deep deep'
  · obtain ⟨deep, deep'⟩ := loose.lt alike
    exact alike.findScope_loose (fun x y same => same.contains _) (fun b q within => by
      rw [Std.TreeMap.contains_eq_isSome_getElem?, (alike.inner b q within).2.2.1 name free]
      rfl) loose deep deep'

theorem AlikeHeaps.lookupVariable? (alike : m.AlikeHeaps m h k) (sees : m.Sees c d name) :
    m.SameSlot (h.lookupVariable? c name) (k.lookupVariable? d name) := by
  have found := alike.variableScope? sees
  rw [Heap.lookupVariable?, Heap.lookupVariable?, findVariableWithin_eq, findVariableWithin_eq]
  rw [Heap.variableScope?, Heap.variableScope?] at found
  generalize h.findScopeWithin _ _ c = owner at found ⊢
  generalize k.findScopeWithin _ _ d = owner' at found ⊢
  cases found with
  | some held => exact (alike.scope held).vars name
  | none => exact .none

theorem AlikeHeaps.functionScope (alike : m.AlikeHeaps m h k) (held : m.scopes c d) :
    m.scopes (h.functionScope c) (k.functionScope d) := by
  obtain ⟨deep, deep'⟩ := alike.scopes.lt held
  have found := alike.findScope_scopes (p := (·.isFunction)) (fun x y same => same.isFunction)
    (fun x y same isFunction _ => isFunction) held deep deep'
  rw [Heap.functionScope, Heap.functionScope]
  generalize h.findScopeWithin _ _ c = owner at found ⊢
  generalize k.findScopeWithin _ _ d = owner' at found ⊢
  cases found with
  | some found => exact found
  | none => exact held

theorem AlikeHeaps.defineVariable (alike : m.AlikeHeaps m h k) (held : m.scopes c d) {v w : Value}
    (name : String) (same : m.Same v w) :
    m.AlikeHeaps m (h.defineVariable c name v) (k.defineVariable d name w) :=
  alike.bindVariable (alike.functionScope held) name same

theorem AlikeHeaps.declareVariable (alike : m.AlikeHeaps m h k) (held : m.scopes c d) (name : String) :
    m.AlikeHeaps m (h.declareVariable c name) (k.declareVariable d name) := by
  have target := alike.functionScope held
  have contains := (alike.scope target).contains name
  rw [Heap.declareVariable, Heap.declareVariable]
  simp only [contains]
  split
  · exact alike
  · exact alike.bindVariable target name .undefined

end Scopes

section Tables

variable {t u : SymbolTable}

theorem AlikeTables.updateSymbol (alike : m.AlikeTables t u) (id : SymbolId) {f g : Symbol → Symbol}
    (changed : ∀ x y, m.SameSymbol x y → m.SameSymbol (f x) (g y)) :
    m.AlikeTables (t.updateSymbol id f) (u.updateSymbol id g) := by
  refine { alike with size := ?_, symbols := fun other => ?_ }
  · simp only [SymbolTable.updateSymbol, Array.size_modify, alike.size]
  · have same := alike.symbols other
    rw [SymbolTable.symbol, SymbolTable.symbol] at same ⊢
    rw [SymbolTable.updateSymbol, SymbolTable.updateSymbol]
    by_cases bound : id.index < t.symbols.size
    · have here := changed _ _ (alike.symbols id)
      rw [Discipline.getD_modify _ _ _ _ bound, Discipline.getD_modify _ _ _ _ (alike.size ▸ bound)]
      by_cases there : other.index = id.index
      · rw [if_pos there, if_pos there]
        exact here
      · rw [if_neg there, if_neg there]
        exact same
    · have unchanged {items : Array Symbol} (f : Symbol → Symbol) (outside : ¬ id.index < items.size) :
          items.modify id.index f = items := by
        simp [Array.modify, Array.modifyM, outside]
      rwa [unchanged f bound, unchanged g (alike.size ▸ bound)]

theorem AlikeTables.push (alike : m.AlikeTables t u) {x y : Symbol} (same : m.SameSymbol x y) :
    m.AlikeTables { t with symbols := t.symbols.push x } { u with symbols := u.symbols.push y } := by
  refine { alike with size := ?_, symbols := fun id => ?_ }
  · simp only [Array.size_push, alike.size]
  · rw [SymbolTable.symbol, SymbolTable.symbol, Discipline.getD_push, Discipline.getD_push, alike.size]
    split
    · exact same
    · exact alike.symbols id

theorem AlikeTables.updatePackage (alike : m.AlikeTables t u) (id : PackageId)
    (f : Package → Package) : m.AlikeTables (t.updatePackage id f) (u.updatePackage id f) := by
  refine { alike with packages := ?_, symbols := alike.symbols }
  rw [SymbolTable.updatePackage, SymbolTable.updatePackage, alike.packages]

theorem AlikeTables.findSymbol? (alike : m.AlikeTables t u) (name : String) (package : PackageId) :
    t.findSymbol? name package = u.findSymbol? name package := by
  unfold SymbolTable.findSymbol? SymbolTable.package
  rw [alike.packages]

theorem AlikeTables.findPackage? (alike : m.AlikeTables t u) (name : String) :
    t.findPackage? name = u.findPackage? name := by
  rw [SymbolTable.findPackage?, SymbolTable.findPackage?, alike.packageNames]

theorem AlikeTables.packageName (alike : m.AlikeTables t u) (id : PackageId) :
    t.packageName id = u.packageName id := by
  rw [SymbolTable.packageName, SymbolTable.packageName, SymbolTable.package, SymbolTable.package,
    alike.packages]

theorem AlikeTables.symbolName (alike : m.AlikeTables t u) (id : SymbolId) :
    t.symbolName id = u.symbolName id := (alike.symbols id).name

theorem AlikeTables.isKeyword (alike : m.AlikeTables t u) (id : SymbolId) :
    t.isKeyword id = u.isKeyword id := by
  rw [SymbolTable.isKeyword, SymbolTable.isKeyword, (alike.symbols id).home]

theorem AlikeTables.makeSymbol (alike : m.AlikeTables t u) (name : String) :
    m.AlikeTables (t.makeSymbol name).2 (u.makeSymbol name).2 ∧
      (t.makeSymbol name).1 = (u.makeSymbol name).1 :=
  ⟨alike.push ⟨rfl, rfl, .none, .none, .nil⟩, congrArg SymbolId.mk alike.size⟩

theorem AlikeTables.gensym (alike : m.AlikeTables t u) (stem : String) :
    m.AlikeTables (t.gensym stem).2 (u.gensym stem).2 ∧ (t.gensym stem).1 = (u.gensym stem).1 := by
  have counted : m.AlikeTables { t with generated := t.generated + 1 }
      { u with generated := u.generated + 1 } :=
    { alike with generated := congrArg (· + 1) alike.generated, symbols := alike.symbols }
  rw [SymbolTable.gensym, SymbolTable.gensym, ← alike.generated] at *
  exact counted.makeSymbol (stem ++ toString (t.generated + 1))

theorem AlikeTables.intern (alike : m.AlikeTables t u) (name : String) (package : PackageId) :
    m.AlikeTables (t.intern name package).2 (u.intern name package).2 ∧
      (t.intern name package).1 = (u.intern name package).1 := by
  unfold SymbolTable.intern SymbolTable.internWithStatus
  rw [← alike.findSymbol? name package, ← alike.size]
  cases t.findSymbol? name package with
  | some found => exact ⟨alike, rfl⟩
  | none =>
      have slot : m.SameSlot (some (.symbol ⟨t.symbols.size⟩)) (some (.symbol ⟨t.symbols.size⟩)) :=
        .some (.symbol _)
      dsimp only
      split
      · exact ⟨(alike.push ⟨rfl, rfl, slot, .none, .nil⟩).updatePackage package _, rfl⟩
      · exact ⟨(alike.push ⟨rfl, rfl, .none, .none, .nil⟩).updatePackage package _, rfl⟩

end Tables

section Data

variable {v w v' w' : Value} {i j : Image}

theorem AlikeHeaps.spineFrom (alike : m.AlikeHeaps m h k) (limit : Nat) {seen seen' : List Value}
    (before : m.SameList seen seen') (same : m.Same v w) :
    m.SameList (h.spineFrom limit seen v).1 (k.spineFrom limit seen' w).1 ∧
      m.Same (h.spineFrom limit seen v).2 (k.spineFrom limit seen' w).2 := by
  induction limit generalizing seen seen' v w with
  | zero => exact ⟨List.rel_reverse before, same⟩
  | succ limit ih =>
      cases same with
      | cons held =>
          have cell := alike.cell held
          exact ih (.cons cell.car before) cell.cdr
      | _ => exact ⟨List.rel_reverse before, by constructor <;> assumption⟩

theorem AlikeHeaps.splitDotted (alike : m.AlikeHeaps m h k) (same : m.Same v w) :
    m.SameList (h.splitDotted v).1 (k.splitDotted w).1 ∧
      m.Same (h.splitDotted v).2 (k.splitDotted w).2 := by
  rw [Heap.splitDotted, Heap.splitDotted, alike.cellCount]
  exact alike.spineFrom _ .nil same

theorem AlikeHeaps.listItems? (alike : m.AlikeHeaps m h k) (same : m.Same v w) :
    Option.Rel m.SameList (h.listItems? v) (k.listItems? w) := by
  obtain ⟨items, tails⟩ := alike.splitDotted same
  rw [Heap.listItems?, Heap.listItems?]
  generalize h.splitDotted v = split at items tails ⊢
  generalize k.splitDotted w = split' at items tails ⊢
  obtain ⟨elements, tail⟩ := split
  obtain ⟨elements', tail'⟩ := split'
  dsimp only at tails
  cases tails with
  | nil => exact .some items
  | _ => exact .none

theorem AlikeHeaps.equalWithin (alike : m.AlikeHeaps m h k) (depth : Nat) (first : m.Same v w)
    (second : m.Same v' w') : h.equalWithin depth v v' = k.equalWithin depth w w' := by
  induction depth generalizing v w v' w' with
  | zero => rfl
  | succ depth ih =>
      have eql := alike.eql first second
      cases first with
      | cons held =>
          cases second with
          | cons held' =>
              have cell := alike.cell held
              have cell' := alike.cell held'
              simp only [Heap.equalWithin, BiUnique.beq alike.cells.unique held held',
                ih cell.car cell'.car, ih cell.cdr cell'.cdr]
          | _ => exact eql
      | string text held =>
          cases second with
          | string text' held' => rfl
          | _ => exact eql
      | _ => cases second <;> exact eql

theorem AlikeHeaps.equal (alike : m.AlikeHeaps m h k) (first : m.Same v w)
    (second : m.Same v' w') : h.equal v v' = k.equal w w' := by
  rw [Heap.equal, Heap.equal, alike.cellCount]
  exact alike.equalWithin _ first second

theorem SameFunction.lookup {f g : FunctionObject} (same : m.SameFunction f g) (name : String) :
    m.SameSlot (f.properties.lookup name) (g.properties.lookup name) := by
  have properties := same.properties
  generalize f.properties = entries at properties ⊢
  generalize g.properties = entries' at properties ⊢
  induction properties with
  | nil => exact .none
  | @cons x y xs ys first rest ih =>
      obtain ⟨key, old⟩ := x
      obtain ⟨key', old'⟩ := y
      obtain ⟨rfl, values⟩ := first
      rw [List.lookup_cons, List.lookup_cons]
      cases name == key with
      | true => exact .some values
      | false => exact ih

theorem SameSlot.getD {slot slot' : Option Value} (same : m.SameSlot slot slot')
    (fallback : m.Same v w) : m.Same (slot.getD v) (slot'.getD w) := by
  cases same with
  | some same => exact same
  | none => exact fallback

theorem AlikeHeaps.property (alike : m.AlikeHeaps m h k) {a b : Address} (held : m.functions a b)
    (name : String) : m.Same (h.property a name) (k.property b name) :=
  SameSlot.getD ((alike.function held).lookup name) .undefined

theorem AlikeHeaps.functionText (alike : m.AlikeHeaps m h k) {a b : Address}
    (held : m.functions a b) : Printer.functionText h a = Printer.functionText k b := by
  have callable := (alike.function held).callable
  have named : Printer.functionName? h a = Printer.functionName? k b := by
    have property := alike.property held "fname"
    rw [Printer.functionName?, Printer.functionName?]
    generalize h.property a "fname" = name at property ⊢
    generalize k.property b "fname" = name' at property ⊢
    generalize (h.function a).callable = f at callable ⊢
    generalize (k.function b).callable = g at callable ⊢
    cases property <;> cases callable <;> rfl
  rw [Printer.functionText, Printer.functionText, named]
  generalize (h.function a).callable = f at callable ⊢
  generalize (k.function b).callable = g at callable ⊢
  cases callable <;> rfl

theorem SameTransfer.text {x y : Transfer} (same : m.SameTransfer x y) :
    Printer.transferText x = Printer.transferText y := by
  rw [Printer.transferText, Printer.transferText, same.kind, same.label]

theorem AlikeTables.symbolText {t u : SymbolTable} (alike : m.AlikeTables t u) (escape : Bool)
    (id : SymbolId) : Printer.symbolText t escape id = Printer.symbolText u escape id := by
  have same := alike.symbols id
  have found (home : PackageId) := alike.findSymbol? (u.symbol id).name home
  have qualified : Printer.qualifier t id = Printer.qualifier u id := by
    unfold Printer.qualifier
    simp only [same.name, same.home, found, alike.current, alike.packageName]
  rw [Printer.symbolText, Printer.symbolText, qualified, alike.symbolName]

/-- Values that stand for one another have the same text. -/
theorem Alike.print (alike : m.Alike i j) (escape : Bool) (budget : Nat) (same : m.Same v w) :
    Printer.print i escape budget v = Printer.print j escape budget w := by
  induction budget generalizing v w with
  | zero => rfl
  | succ budget ih =>
      have texts {items items' : List Value} (same : m.SameList items items') :
          items.map (Printer.print i escape budget) = items'.map (Printer.print j escape budget) := by
        induction same with
        | nil => rfl
        | cons first _ rest => rw [List.map_cons, List.map_cons, ih first, rest]
      cases same with
      | cons held =>
          obtain ⟨items, tails⟩ := alike.heap.splitDotted (.cons held)
          simp only [Printer.print, texts items, tails.isNil, ih tails]
      | vector held =>
          simp only [Printer.print, texts (alike.heap.vector held)]
      | function held => exact alike.heap.functionText held
      | bundle held =>
          have items := alike.heap.bundle held
          have texts := congrArg (List.map (" " ++ ·)) (texts items)
          rw [List.map_map, List.map_map] at texts
          exact congrArg (fun texts => "#<VALUES" ++ String.join texts ++ ">") texts
      | transfer held => exact (alike.heap.transfer held).text
      | symbol id => exact alike.symbols.symbolText escape id
      | package id =>
          simp only [Printer.print, alike.symbols.packageName]
      | _ => rfl

end Data

end LispScript.Machine.Pairing
