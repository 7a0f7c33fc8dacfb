import LispScript.Proofs.AlikeImages

/-!
Runs that end alike from images that are alike. Steps of the machine are put together in the same way
on both sides; from these rules every builtin and every operator has the property.
-/

namespace LispScript.Machine.Pairing

variable {m m' : Pairing}

section Runs

variable {α β γ δ : Type} {A : Pairing → α → β → Prop} {B : Pairing → γ → δ → Prop}

inductive SameInterrupt (m : Pairing) : Interrupt → Interrupt → Prop where
  | thrown {v w : Value} (same : m.Same v w) : SameInterrupt m (.thrown v) (.thrown w)
  | failed (error : RuntimeError) : SameInterrupt m (.failed error) (.failed error)
  | outOfSteps : SameInterrupt m .outOfSteps .outOfSteps

/-- Runs end alike, and with results that are A by what stands for what at their end. -/
inductive Agree (m : Pairing) {α β : Type} (A : Pairing → α → β → Prop) :
    EStateM.Result Interrupt Image α → EStateM.Result Interrupt Image β → Prop where
  | ok {m' : Pairing} {i j : Image} {a : α} {b : β} (grows : m.Grows m') (alike : m'.Alike i j)
      (held : A m' a b) : Agree m A (.ok a i) (.ok b j)
  | error {m' : Pairing} {i j : Image} {x y : Interrupt} (grows : m.Grows m')
      (alike : m'.Alike i j) (same : m'.SameInterrupt x y) : Agree m A (.error x i) (.error y j)

/-- From images that are alike, two runs end alike. -/
def Sim (m : Pairing) {α β : Type} (x : Run α) (y : Run β) (A : Pairing → α → β → Prop) :
    Prop :=
  ∀ i j, m.Alike i j → m.Agree A (x i) (y j)

/-- Results that are the same on both sides. -/
abbrev Equal {α : Type} : Pairing → α → α → Prop := fun _ a b => a = b

theorem Agree.since {r : EStateM.Result Interrupt Image α} {r' : EStateM.Result Interrupt Image β}
    (agree : m'.Agree A r r') (grows : m.Grows m') : m.Agree A r r' := by
  cases agree with
  | ok more alike held => exact .ok (grows.trans more) alike held
  | error more alike same => exact .error (grows.trans more) alike same

namespace Sim

theorem bind {x : Run α} {y : Run β} {f : α → Run γ} {g : β → Run δ} (first : m.Sim x y A)
    (rest : ∀ m' a b, m.Grows m' → A m' a b → m'.Sim (f a) (g b) B) :
    m.Sim (x >>= f) (y >>= g) B := by
  intro i j alike
  change m.Agree B (EStateM.bind x f i) (EStateM.bind y g j)
  rw [EStateM.bind, EStateM.bind]
  have agree := first i j alike
  generalize x i = r at agree ⊢
  generalize y j = r' at agree ⊢
  cases agree with
  | ok grows alike held => exact (rest _ _ _ grows held _ _ alike).since grows
  | error grows alike same => exact .error grows alike same

theorem pure {a : α} {b : β} (held : A m a b) : m.Sim (Pure.pure a) (Pure.pure b) A :=
  fun _ _ alike => .ok (.refl m) alike held

theorem interrupt {x y : Interrupt} (same : m.SameInterrupt x y) :
    m.Sim (throw x : Run α) (throw y : Run β) A :=
  fun _ _ alike => .error (.refl m) alike same

theorem fail (error : RuntimeError) : m.Sim (Run.fail error) (Run.fail error) A :=
  .interrupt (.failed error)

/-- Steps that only look at the images. -/
theorem look {f : Image → α} {g : Image → β} (held : ∀ i j, m.Alike i j → A m (f i) (g j)) :
    m.Sim (fun i => .ok (f i) i) (fun j => .ok (g j) j) A :=
  fun i j alike => .ok (.refl m) alike (held i j alike)

theorem withHeap {f : Heap → Run γ} {g : Heap → Run δ}
    (rest : ∀ h k, m.AlikeHeaps m h k → m.Sim (f h) (g k) B) :
    m.Sim (Run.heap >>= f) (Run.heap >>= g) B :=
  fun i j alike => rest i.heap j.heap alike.heap i j alike

theorem withSymbols {f : SymbolTable → Run γ} {g : SymbolTable → Run δ}
    (rest : ∀ t u, m.AlikeTables t u → m.Sim (f t) (g u) B) :
    m.Sim (Run.symbols >>= f) (Run.symbols >>= g) B :=
  fun i j alike => rest i.symbols j.symbols alike.symbols i j alike

/-- Steps that change the heap. -/
theorem onHeap {f : Heap → α × Heap} {g : Heap → β × Heap}
    (held : ∀ h k, m.AlikeHeaps m h k → ∃ m', m.Grows m' ∧ m'.AlikeHeaps m' (f h).2 (g k).2 ∧
      A m' (f h).1 (g k).1) :
    m.Sim (Run.onHeap f) (Run.onHeap g) A := by
  intro i j alike
  obtain ⟨m', grows, heap, held⟩ := held i.heap j.heap alike.heap
  exact .ok grows ⟨alike.symbols.mono grows, heap, alike.depth, alike.depthLimit⟩ held

theorem modifyHeap {f g : Heap → Heap}
    (held : ∀ h k, m.AlikeHeaps m h k → m.AlikeHeaps m (f h) (g k)) :
    m.Sim (Run.modifyHeap f) (Run.modifyHeap g) Equal :=
  fun i j alike => .ok (.refl m) { alike with heap := held i.heap j.heap alike.heap } rfl

/-- Steps that change the symbol table. -/
theorem onSymbols {f : SymbolTable → α × SymbolTable} {g : SymbolTable → β × SymbolTable}
    (held : ∀ t u, m.AlikeTables t u → m.AlikeTables (f t).2 (g u).2 ∧ A m (f t).1 (g u).1) :
    m.Sim (Run.onSymbols f) (Run.onSymbols g) A := by
  intro i j alike
  obtain ⟨symbols, held⟩ := held i.symbols j.symbols alike.symbols
  exact .ok (.refl m) { alike with symbols } held

theorem modifySymbols {f g : SymbolTable → SymbolTable}
    (held : ∀ t u, m.AlikeTables t u → m.AlikeTables (f t) (g u)) :
    m.Sim (Run.modifySymbols f) (Run.modifySymbols g) Equal :=
  fun i j alike => .ok (.refl m) { alike with symbols := held i.symbols j.symbols alike.symbols } rfl

theorem map {x : Run α} {y : Run β} {f : α → γ} {g : β → δ} (sim : m.Sim x y A)
    (held : ∀ m' a b, m.Grows m' → A m' a b → B m' (f a) (g b)) :
    m.Sim (f <$> x) (g <$> y) B := by
  rw [← bind_pure_comp, ← bind_pure_comp]
  exact sim.bind fun m' a b grows A => .pure (held m' a b grows A)

end Sim

end Runs

section Builtins

variable {v w v' w' : Value} {args args' : List Value}

theorem SameList.argument (same : m.SameList args args') (i : Nat) :
    m.Same (argument args i) (argument args' i) := by
  induction same generalizing i with
  | nil => exact .undefined
  | cons first _ ih =>
      cases i with
      | zero => exact first
      | succ i => exact ih i

theorem SameList.actual (same : m.SameList args args') (i : Nat) :
    m.Same (actual args i) (actual args' i) := by
  induction same generalizing i with
  | nil => exact .nil
  | cons first _ ih =>
      cases i with
      | zero => exact first
      | succ i => exact ih i

theorem SameList.drop (same : m.SameList args args') (n : Nat) :
    m.SameList (args.drop n) (args'.drop n) := List.forall₂_drop n same

theorem SameList.tail (same : m.SameList args args') : m.SameList args.tail args'.tail := by
  cases same with
  | nil => exact .nil
  | cons _ rest => exact rest

theorem SameList.getLast? (same : m.SameList args args') :
    m.SameSlot args.getLast? args'.getLast? := by
  rw [List.getLast?_eq_head?_reverse, List.getLast?_eq_head?_reverse]
  have reversed : m.SameList args.reverse args'.reverse := List.rel_reverse same
  generalize args.reverse = front at reversed ⊢
  generalize args'.reverse = front' at reversed ⊢
  cases reversed with
  | nil => exact .none
  | cons first _ => exact .some first

theorem SameList.dropLast (same : m.SameList args args') :
    m.SameList args.dropLast args'.dropLast := by
  induction same with
  | nil => exact .nil
  | cons first rest ih =>
      cases rest with
      | nil => exact .nil
      | cons _ _ => exact .cons first ih

theorem SameSlot.isSome {slot slot' : Option Value} (same : m.SameSlot slot slot') :
    slot.isSome = slot'.isSome := by
  cases same <;> rfl

theorem SameList.getElem? (same : m.SameList args args') (i : Nat) : m.SameSlot args[i]? args'[i]? := by
  induction same generalizing i with
  | nil => exact .none
  | cons first _ ih =>
      cases i with
      | zero => exact .some first
      | succ i => exact ih i

theorem SameItems.getElem? {x y : Array Value} (same : m.SameItems x y) (i : Nat) :
    m.SameSlot x[i]? y[i]? := by
  rw [← Array.getElem?_toList, ← Array.getElem?_toList]
  exact SameList.getElem? same i

namespace Sim

theorem describe (same : m.Same v w) : m.Sim (Run.describe v) (Run.describe w) Equal :=
  .look fun _ _ alike => alike.print _ _ same

theorem typeError {α β : Type} {A : Pairing → α → β → Prop} (same : m.Same v w)
    (expected : String) : m.Sim (Run.typeError v expected) (Run.typeError w expected) A :=
  .bind (.describe same) fun m' _ _ _ same => by
    cases same
    exact .fail _

theorem newString (text : String) : m.Sim (Run.newString text) (Run.newString text) Same :=
  .onHeap fun _ _ alike => alike.allocString text

theorem numberOf (same : m.Same v w) : m.Sim (numberOf v) (numberOf w) Equal := by
  have again := same
  cases same with
  | number n => exact .pure rfl
  | _ => exact .typeError again _

theorem symbolOf (same : m.Same v w) : m.Sim (symbolOf v) (symbolOf w) Equal := by
  rw [Machine.symbolOf, Machine.symbolOf, ← same.asSymbol?]
  cases v.asSymbol? with
  | some id => exact .pure rfl
  | none => exact .typeError same _

theorem listItems (same : m.Same v w) : m.Sim (listItems v) (listItems w) SameList := by
  refine .withHeap fun h k alike => ?_
  have items := alike.listItems? same
  generalize h.listItems? v = found at items ⊢
  generalize k.listItems? w = found' at items ⊢
  cases items with
  | some items => exact .pure items
  | none => exact .typeError same _

theorem newList (same : m.SameList args args') : m.Sim (newList args) (newList args') Same :=
  .onHeap fun _ _ alike => alike.allocList same

theorem newVector (same : m.SameList args args') : m.Sim (newVector args) (newVector args') Same :=
  .onHeap fun _ _ alike => alike.allocVector (by simpa [SameItems] using same)

theorem accumulate (op : Float → Float → Float) (total : Float) (same : m.SameList args args') :
    m.Sim (accumulate op total args) (accumulate op total args') Same := by
  induction args generalizing m args' total with
  | nil =>
      cases same
      exact .pure (.number total)
  | cons first rest ih =>
      cases same with
      | cons same others =>
          refine .bind (.numberOf same) fun m' n _ grows equal => ?_
          cases equal
          exact ih _ (SameList.mono others grows)

theorem divideBy (total : Float) (same : m.SameList args args') :
    m.Sim (divideBy total args) (divideBy total args') Same := by
  induction args generalizing m args' total with
  | nil =>
      cases same
      exact .pure (.number total)
  | cons first rest ih =>
      cases same with
      | cons same others =>
          refine .bind (.numberOf same) fun m' n _ grows equal => ?_
          cases equal
          split
          · exact .fail _
          · exact ih _ (SameList.mono others grows)

theorem subtract (same : m.SameList args args') : m.Sim (subtract args) (subtract args') Same := by
  refine .bind (.numberOf (same.actual 0)) fun m' n _ grows equal => ?_
  cases equal
  have same := same.mono grows
  cases same with
  | nil => exact .accumulate _ _ .nil
  | cons first rest =>
      cases rest with
      | nil => exact .pure (.number _)
      | cons second rest => exact .accumulate _ _ (.cons second rest)

theorem divide (same : m.SameList args args') : m.Sim (divide args) (divide args') Same := by
  refine .bind (.numberOf (same.actual 0)) fun m' n _ grows equal => ?_
  cases equal
  have same := same.mono grows
  cases same with
  | nil => exact .divideBy _ .nil
  | cons first rest =>
      cases rest with
      | nil => exact .divideBy _ (.cons first .nil)
      | cons second rest => exact .divideBy _ (.cons second rest)

theorem floorMod (same : m.SameList args args') : m.Sim (floorMod args) (floorMod args') Same := by
  refine .bind (.numberOf (same.actual 0)) fun m' a _ grows equal => ?_
  cases equal
  refine .bind (.numberOf ((same.mono grows).actual 1)) fun m'' b _ grows equal => ?_
  cases equal
  split
  · exact .fail _
  · exact .pure (.number _)

theorem chainFrom (related : Float → Float → Bool) (previous : Float)
    (same : m.SameList args args') :
    m.Sim (chainFrom related previous args) (chainFrom related previous args') Same := by
  induction args generalizing m args' previous with
  | nil =>
      cases same
      exact .pure (.symbol _)
  | cons first rest ih =>
      cases same with
      | cons same others =>
          refine .bind (.numberOf same) fun m' n _ grows equal => ?_
          cases equal
          split
          · exact ih _ (SameList.mono others grows)
          · exact .pure .nil

theorem chain (related : Float → Float → Bool) (same : m.SameList args args') :
    m.Sim (chain related args) (chain related args') Same := by
  refine .bind (.numberOf (same.actual 0)) fun m' n _ grows equal => ?_
  cases equal
  exact .chainFrom _ _ (same.mono grows).tail

theorem carOf (same : m.Same v w) : m.Sim (carOf v) (carOf w) Same := by
  have again := same
  cases same with
  | nil => exact .pure .nil
  | cons held => exact .withHeap fun h k alike => .pure (alike.cell held).car
  | _ => exact .typeError again _

theorem cdrOf (same : m.Same v w) : m.Sim (cdrOf v) (cdrOf w) Same := by
  have again := same
  cases same with
  | nil => exact .pure .nil
  | cons held => exact .withHeap fun h k alike => .pure (alike.cell held).cdr
  | _ => exact .typeError again _

theorem replaceCar (place : m.Same v w) (same : m.Same v' w') :
    m.Sim (replaceCar v v') (replaceCar w w') Same := by
  have again := place
  cases place with
  | cons held =>
      exact .bind (.modifyHeap fun h k alike => alike.setCar held same) fun m' _ _ grows _ =>
        .pure (again.mono grows)
  | _ => exact .typeError again _

theorem replaceCdr (place : m.Same v w) (same : m.Same v' w') :
    m.Sim (replaceCdr v v') (replaceCdr w w') Same := by
  have again := place
  cases place with
  | cons held =>
      exact .bind (.modifyHeap fun h k alike => alike.setCdr held same) fun m' _ _ grows _ =>
        .pure (again.mono grows)
  | _ => exact .typeError again _

theorem allocListWithTail (items : m.SameList args args') (tail : m.Same v w) :
    m.Sim (Run.onHeap (·.allocListWithTail args v)) (Run.onHeap (·.allocListWithTail args' w)) Same :=
  .onHeap fun _ _ alike => alike.allocListWithTail items tail

theorem listStar (same : m.SameList args args') : m.Sim (listStar args) (listStar args') Same := by
  have last := same.getLast?
  rw [Machine.listStar, Machine.listStar]
  generalize args.getLast? = tail at last ⊢
  generalize args'.getLast? = tail' at last ⊢
  cases last with
  | none => exact .pure .nil
  | some tail => exact .allocListWithTail same.dropLast tail

theorem mapM {α : Type} {f g : Value → Run α} {related : Pairing → α → α → Prop}
    (each : ∀ m' v w, m.Grows m' → m'.Same v w → m'.Sim (f v) (g w) related)
    (mono : ∀ (m' m'' : Pairing) a b, m'.Grows m'' → related m' a b → related m'' a b)
    (same : m.SameList args args') :
    m.Sim (args.mapM f) (args'.mapM g) fun m' => List.Forall₂ (related m') := by
  induction args generalizing m args' with
  | nil =>
      cases same
      exact .pure .nil
  | cons first rest ih =>
      cases same with
      | cons same others =>
          rw [List.mapM_cons, List.mapM_cons]
          refine .bind (each m _ _ (.refl m) same) fun m' a b grows held => ?_
          refine .bind (ih (fun m'' v w more same => each m'' v w (grows.trans more) same)
            (SameList.mono others grows)) fun m'' as bs more all => ?_
          exact .pure (.cons (mono m' m'' a b more held) all)

theorem appendLists (same : m.SameList args args') :
    m.Sim (appendLists args) (appendLists args') Same := by
  have last := same.getLast?
  rw [Machine.appendLists, Machine.appendLists]
  generalize args.getLast? = tail at last ⊢
  generalize args'.getLast? = tail' at last ⊢
  cases last with
  | none => exact .pure .nil
  | some tail =>
      refine .bind (.mapM (fun _ _ _ _ same => .listItems same)
        (fun _ _ _ _ grows same => SameList.mono same grows) same.dropLast) fun m' lists lists' grows all => ?_
      exact .allocListWithTail (List.rel_flatten all) (tail.mono grows)

theorem lengthOf (same : m.Same v w) : m.Sim (lengthOf v) (lengthOf w) Same := by
  have again := same
  have asList : m.Sim (do return Value.number (Float.ofNat (← Machine.listItems v).length))
      (do return Value.number (Float.ofNat (← Machine.listItems w).length)) Same :=
    .bind (.listItems same) fun m' items items' _ same => by
      rw [List.Forall₂.length_eq same]
      exact .pure (.number _)
  cases same with
  | vector held =>
      refine .withHeap fun h k alike => ?_
      have sizes : (h.vector _).size = (k.vector _).size := (alike.vector held).length_eq
      rw [sizes]
      exact .pure (.number _)
  | string text held => exact .pure (.number _)
  | _ => exact asList

theorem reverseOf (same : m.Same v w) : m.Sim (reverseOf v) (reverseOf w) Same := by
  have again := same
  have asList : m.Sim (do Machine.newList (← Machine.listItems v).reverse)
      (do Machine.newList (← Machine.listItems w).reverse) Same :=
    .bind (.listItems same) fun m' items items' _ same => .newList (List.rel_reverse same)
  cases same with
  | vector held =>
      exact .withHeap fun h k alike => .newVector (List.rel_reverse (alike.vector held))
  | string text held => exact .newString _
  | _ => exact asList

theorem nthOf (n : Nat) (same : m.Same v w) : m.Sim (nthOf n v) (nthOf n w) Same := by
  induction n generalizing v w with
  | zero => exact .carOf same
  | succ n ih =>
      have again := same
      cases same with
      | nil => exact .pure .nil
      | cons held => exact .withHeap fun h k alike => ih (alike.cell held).cdr
      | _ => exact .typeError again _

theorem symbolValue (same : m.Same v w) : m.Sim (symbolValue v) (symbolValue w) Same := by
  refine .bind (.symbolOf same) fun m' id _ grows equal => ?_
  cases equal
  refine .withSymbols fun t u alike => ?_
  have slots := (alike.symbols id).value
  generalize (t.symbol id).value = slot at slots ⊢
  generalize (u.symbol id).value = slot' at slots ⊢
  cases slots with
  | some held => exact .pure held
  | none => exact .bind (.describe (same.mono grows)) fun _ _ _ _ equal => equal ▸ .fail _

theorem symbolFunction (same : m.Same v w) : m.Sim (symbolFunction v) (symbolFunction w) Same := by
  refine .bind (.symbolOf same) fun m' id _ grows equal => ?_
  cases equal
  refine .withSymbols fun t u alike => ?_
  have slots := (alike.symbols id).function
  generalize (t.symbol id).function = slot at slots ⊢
  generalize (u.symbol id).function = slot' at slots ⊢
  cases slots with
  | some held => exact .pure held
  | none => exact .bind (.describe (same.mono grows)) fun _ _ _ _ equal => equal ▸ .fail _

theorem setSlotValue (id : SymbolId) {slot slot' : Option Value} (same : m.SameSlot slot slot') :
    m.Sim (Run.modifySymbols (·.setValue id slot)) (Run.modifySymbols (·.setValue id slot')) Equal :=
  .modifySymbols fun _ _ alike => alike.updateSymbol id fun _ _ old => { old with value := same }

theorem setSlotFunction (id : SymbolId) {slot slot' : Option Value} (same : m.SameSlot slot slot') :
    m.Sim (Run.modifySymbols (·.setFunction id slot)) (Run.modifySymbols (·.setFunction id slot'))
      Equal :=
  .modifySymbols fun _ _ alike => alike.updateSymbol id fun _ _ old => { old with function := same }

theorem setValue (place : m.Same v w) (same : m.Same v' w') :
    m.Sim (setValue v v') (setValue w w') Same := by
  refine .bind (.symbolOf place) fun m' id _ grows equal => ?_
  cases equal
  have same := same.mono grows
  exact .bind (.setSlotValue id (.some same)) fun m'' _ _ grows _ => .pure (same.mono grows)

theorem setFunction (place : m.Same v w) (same : m.Same v' w') :
    m.Sim (setFunction v v') (setFunction w w') Same := by
  refine .bind (.symbolOf place) fun m' id _ grows equal => ?_
  cases equal
  have same := same.mono grows
  have kind : v'.isFunction = w'.isFunction := by cases same <;> rfl
  rw [kind]
  split
  · exact .bind (.setSlotFunction id (.some same)) fun m'' _ _ grows _ => .pure (same.mono grows)
  · exact .typeError same _

theorem findProperty? {h k : Heap} (alike : m.AlikeHeaps m h k) (indicator : m.Same v w)
    (same : m.SameList args args') :
    m.SameSlot (findProperty? v args) (findProperty? w args') := by
  fun_induction Machine.findProperty? v args generalizing args' with
  | case1 =>
      cases same
      exact .none
  | case2 key found =>
      cases same with
      | cons first rest =>
          cases rest
          rw [Machine.findProperty?, ← alike.eql first indicator, if_pos found]
          exact .some .nil
  | case3 key missing =>
      cases same with
      | cons first rest =>
          cases rest
          rw [Machine.findProperty?, ← alike.eql first indicator, if_neg missing]
          exact .none
  | case4 key value rest found =>
      cases same with
      | cons first rest =>
          cases rest with
          | cons second rest =>
              rw [Machine.findProperty?, ← alike.eql first indicator, if_pos found]
              exact .some second
  | case5 key value rest missing ih =>
      cases same with
      | cons first rest =>
          cases rest with
          | cons second rest =>
              rw [Machine.findProperty?, ← alike.eql first indicator, if_neg missing]
              exact ih rest

theorem getFromPlist {v'' w'' : Value} (symbol : m.Same v w) (indicator : m.Same v' w')
    (fallback : m.Same v'' w'') :
    m.Sim (getFromPlist v v' v'') (getFromPlist w w' w'') Same := by
  refine .bind (.symbolOf symbol) fun m' id _ grows equal => ?_
  cases equal
  refine .withSymbols fun t u alike => ?_
  refine .bind (.listItems (alike.symbols id).plist) fun m'' items items' more same => ?_
  have grows := grows.trans more
  intro i j alike
  exact .ok (.refl _) alike (SameSlot.getD
    (findProperty? alike.heap (indicator.mono grows) same) (fallback.mono grows))

theorem packageNamed (name : String) : m.Sim (packageNamed name) (packageNamed name) Equal := by
  refine .withSymbols fun t u alike => ?_
  rw [SymbolTable.requirePackage, SymbolTable.requirePackage, alike.findPackage?]
  cases u.findPackage? name with
  | some id => exact .pure rfl
  | none => exact .fail _

theorem packageOf (same : m.Same v w) : m.Sim (packageOf v) (packageOf w) Equal := by
  have again := same
  cases same with
  | package id => exact .pure rfl
  | string text held => exact .packageNamed text
  | symbol id =>
      refine .withSymbols fun t u alike => ?_
      rw [alike.symbolName]
      exact .packageNamed _
  | _ => exact .typeError again _

theorem internIn (name : String) (package : PackageId) :
    m.Sim (Value.ofSymbol <$> Run.onSymbols (·.intern name package))
      (Value.ofSymbol <$> Run.onSymbols (·.intern name package)) Same :=
  .map (A := Equal) (.onSymbols fun _ _ alike => alike.intern name package)
    fun _ _ _ _ equal => equal ▸ .ofSymbol _

theorem intern (same : m.SameList args args') : m.Sim (intern args) (intern args') Same := by
  have name := same.actual 0
  rw [Machine.intern, Machine.intern]
  generalize Machine.actual args 0 = v at name ⊢
  generalize Machine.actual args' 0 = w at name ⊢
  have again := name
  cases name with
  | string text held =>
      cases same with
      | nil =>
          refine .bind (A := Equal) (.map (A := fun m => m.AlikeTables)
            (fun i j alike => .ok (.refl m) alike alike.symbols) fun _ _ _ _ alike => alike.current)
            fun m' package _ grows equal => ?_
          cases equal
          exact .internIn text package
      | cons first rest =>
          cases rest with
          | nil =>
              refine .bind (A := Equal) (.map (A := fun m => m.AlikeTables)
                (fun i j alike => .ok (.refl m) alike alike.symbols) fun _ _ _ _ alike => alike.current)
                fun m' package _ grows equal => ?_
              cases equal
              exact .internIn text package
          | cons second rest =>
              refine .bind (.packageOf second) fun m' package _ grows equal => ?_
              cases equal
              exact .internIn text package
  | _ => exact .typeError again _

theorem newSymbol (name : String) :
    m.Sim (Value.symbol <$> Run.onSymbols (·.makeSymbol name))
      (Value.symbol <$> Run.onSymbols (·.makeSymbol name)) Same :=
  .map (A := Equal) (.onSymbols fun _ _ alike => alike.makeSymbol name)
    fun _ _ _ _ equal => equal ▸ .symbol _

theorem makeSymbol (same : m.Same v w) : m.Sim (makeSymbol v) (makeSymbol w) Same := by
  have again := same
  cases same with
  | string text held => exact .newSymbol text
  | _ => exact .typeError again _

theorem gensymNamed (stem : String) :
    m.Sim (Value.symbol <$> Run.onSymbols (·.gensym stem))
      (Value.symbol <$> Run.onSymbols (·.gensym stem)) Same :=
  .map (A := Equal) (.onSymbols fun _ _ alike => alike.gensym stem)
    fun _ _ _ _ equal => equal ▸ .symbol _

theorem gensym (same : m.SameList args args') : m.Sim (gensym args) (gensym args') Same := by
  cases same with
  | nil => exact .gensymNamed _
  | cons first rest => cases first <;> exact .gensymNamed _

/-- The documentation of a function. -/
theorem documentationOfFunction (same : m.Same v w) :
    m.Sim
      (match v with
        | .function address => do
            match (← Run.heap).property address "docstring" with
            | .undefined => return .nil
            | text => return text
        | _ => return .nil)
      (match w with
        | .function address => do
            match (← Run.heap).property address "docstring" with
            | .undefined => return .nil
            | text => return text
        | _ => return .nil) Same := by
  cases same with
  | function held =>
      refine .withHeap fun h k alike => ?_
      have text := alike.property held "docstring"
      generalize h.property _ "docstring" = text at text ⊢
      generalize k.property _ "docstring" = text' at text ⊢
      have again := text
      cases text with
      | undefined => exact .pure .nil
      | _ => exact .pure again
  | _ => exact .pure .nil

theorem documentation (same : m.Same v w) : m.Sim (documentation v) (documentation w) Same := by
  have again := same
  cases same with
  | symbol id =>
      exact .withSymbols fun t u alike =>
        documentationOfFunction (SameSlot.getD (alike.symbols id).function .nil)
  | _ => exact documentationOfFunction again

/-- What was looked up in a sequence, or the failure to find it. -/
theorem found (n : Float) (sequence : m.Same v w) {slot slot' : Option Value}
    (same : m.SameSlot slot slot') :
    m.Sim
      (match slot with
        | some item => return item
        | none => do Run.fail (.signal ("index " ++ Number.messageText n ++ " out of bounds for " ++
            (← Run.describe v))))
      (match slot' with
        | some item => return item
        | none => do Run.fail (.signal ("index " ++ Number.messageText n ++ " out of bounds for " ++
            (← Run.describe w)))) Same := by
  cases same with
  | some same => exact .pure same
  | none => exact .bind (.describe sequence) fun _ _ _ _ equal => equal ▸ .fail _

theorem elementOf (sequence : m.Same v w) (position : m.Same v' w') :
    m.Sim (elementOf v v') (elementOf w w') Same := by
  refine .bind (.numberOf position) fun m' n _ grows equal => ?_
  cases equal
  have sequence := sequence.mono grows
  have again := sequence
  cases sequence with
  | vector held =>
      exact .withHeap fun h k alike => .bind (A := SameSlot) (.pure ((alike.vector held).getElem? _))
        fun m'' slot slot' grows same => .found n (again.mono grows) same
  | string text held =>
      refine .bind (A := SameSlot) (.pure ?_) fun m'' slot slot' grows same =>
        .found n (again.mono grows) same
      cases text.toList[Number.toCount n]? with
      | some c => exact .some (.character c)
      | none => exact .none
  | _ =>
      exact .bind (A := SameSlot) (.typeError again _) fun m'' slot slot' grows same =>
        .found n (again.mono grows) same

theorem formatMessage {i j : Image} (alike : m.Alike i j) (text : List Char)
    (same : m.SameList args args') : formatMessage i text args = formatMessage j text args' := by
  have shown {show_ : Image → Value → String}
      (texts : ∀ v w, m.Same v w → show_ i v = show_ j w) {args args' : List Value}
      (same : m.SameList args args') :
      (args.head?.map (show_ i)).getD "" = (args'.head?.map (show_ j)).getD "" := by
    cases same with
    | nil => rfl
    | cons first _ => exact texts _ _ first
  have princ : ∀ v w, m.Same v w → Image.princ i v = Image.princ j w :=
    fun _ _ same => alike.print _ _ same
  have print : ∀ v w, m.Same v w → Image.print i v = Image.print j w :=
    fun _ _ same => alike.print _ _ same
  fun_induction Machine.formatMessage i text args generalizing args' with
  | case1 args => rw [Machine.formatMessage]
  | case2 directive rest args isA ih =>
      simp only [Machine.formatMessage, isA, shown princ same, ih same.tail]
  | case3 directive rest args isS ih =>
      simp only [Machine.formatMessage, isS, shown print same, ih same.tail]
  | case4 directive rest args isLine ih =>
      simp only [Machine.formatMessage, isLine, ih same]
  | case5 directive rest args isTilde ih =>
      simp only [Machine.formatMessage, isTilde, ih same]
  | case6 directive rest args notA notS notLine notTilde ih =>
      simp only [Machine.formatMessage, ih same]
  | case7 c rest args plain ih =>
      rw [Machine.formatMessage, ih same]
      exact plain

theorem signalError (same : m.SameList args args') :
    m.Sim (signalError args) (signalError args') Same := by
  have control := same.actual 0
  rw [Machine.signalError, Machine.signalError]
  generalize Machine.actual args 0 = v at control ⊢
  generalize Machine.actual args' 0 = w at control ⊢
  have again := control
  cases control with
  | string text held =>
      intro i j alike
      change m.Agree Same (.error (.failed (.signal (Machine.formatMessage i text.toList args.tail))) i)
        (.error (.failed (.signal (Machine.formatMessage j text.toList args'.tail))) j)
      rw [formatMessage alike text.toList same.tail]
      exact .error (.refl m) alike (.failed _)
  | _ => exact .bind (.describe again) fun _ _ _ _ equal => equal ▸ .fail _

theorem runBuiltin (p : Primitive) (same : m.SameList args args') :
    m.Sim (runBuiltin p args) (runBuiltin p args') Same := by
  have first := same.actual 0
  have second := same.actual 1
  cases p
  case add => exact .accumulate _ _ same
  case sub => exact .subtract same
  case mul => exact .accumulate _ _ same
  case div => exact .divide same
  case inc => exact .bind (.numberOf first) fun _ _ _ _ equal => equal ▸ .pure (.number _)
  case dec => exact .bind (.numberOf first) fun _ _ _ _ equal => equal ▸ .pure (.number _)
  case floorMod => exact .floorMod same
  case numEq => exact .chain _ same
  case lt => exact .chain _ same
  case gt => exact .chain _ same
  case le => exact .chain _ same
  case ge => exact .chain _ same
  case cons => exact .onHeap fun _ _ alike => alike.allocCell first second
  case car => exact .carOf first
  case cdr => exact .cdrOf first
  case rplaca => exact .replaceCar first second
  case rplacd => exact .replaceCdr first second
  case list => exact .newList same
  case listStar => exact .listStar same
  case append => exact .appendLists same
  case length => exact .lengthOf first
  case reverse => exact .reverseOf first
  case nth =>
    refine .bind (.numberOf first) fun _ _ _ grows equal => ?_
    cases equal
    exact .nthOf _ (second.mono grows)
  case equal =>
    refine .withHeap fun h k alike => ?_
    rw [alike.equal first second]
    exact .pure (.ofBool _)
  case keywordp =>
    simp only [Machine.runBuiltin]
    generalize Machine.actual args 0 = v at first ⊢
    generalize Machine.actual args' 0 = w at first ⊢
    cases first with
    | symbol id =>
        refine .withSymbols fun t u alike => ?_
        rw [alike.isKeyword]
        exact .pure (.ofBool _)
    | _ => exact .pure .nil
  case symbolValue => exact .symbolValue first
  case symbolFunction => exact .symbolFunction first
  case set => exact .setValue first second
  case fset => exact .setFunction first second
  case boundp =>
    refine .withSymbols fun t u alike => .bind (.symbolOf first) fun m' id _ grows equal => ?_
    cases equal
    rw [SameSlot.isSome (alike.symbols id).value]
    exact .pure (.ofBool _)
  case fboundp =>
    refine .withSymbols fun t u alike => .bind (.symbolOf first) fun m' id _ grows equal => ?_
    cases equal
    rw [SameSlot.isSome (alike.symbols id).function]
    exact .pure (.ofBool _)
  case symbolName =>
    refine .withSymbols fun t u alike => .bind (.symbolOf first) fun m' id _ grows equal => ?_
    cases equal
    rw [alike.symbolName]
    exact .newString _
  case symbolPlist =>
    refine .withSymbols fun t u alike => .bind (.symbolOf first) fun m' id _ grows equal => ?_
    cases equal
    exact .pure ((alike.symbols id).plist.mono grows)
  case get => exact .getFromPlist first second (same.actual 2)
  case intern => exact .intern same
  case makeSymbol => exact .makeSymbol first
  case gensym => exact .gensym same
  case documentation => exact .documentation first
  case vector => exact .newVector same
  case aref => exact .elementOf first second
  case error => exact .signalError same
  case eq =>
    intro i j alike
    have strictEq := alike.heap.strictEq first second
    exact .ok (.refl m) alike (strictEq ▸ .ofBool _)
  case eql =>
    intro i j alike
    have eql := alike.heap.eql first second
    exact .ok (.refl m) alike (eql ▸ .ofBool _)
  case funcall | apply | values | valuesList => exact .pure .undefined
  all_goals
    simp only [Machine.runBuiltin]
    generalize Machine.actual args 0 = v at first ⊢
    generalize Machine.actual args' 0 = w at first ⊢
    cases first <;> exact .pure (.ofBool _)

theorem count (same : m.Same v w) : m.Sim (count v) (count w) Equal := by
  have again := same
  cases same with
  | number n =>
      simp only [Machine.count]
      split
      · exact .pure rfl
      · exact .typeError again _
  | _ => exact .typeError again _

theorem packValues (same : m.SameList args args') :
    m.Sim (packValues args) (packValues args') Same := by
  cases same with
  | nil => exact .onHeap fun _ _ alike => alike.allocBundle .nil
  | cons first rest =>
      cases rest with
      | nil => exact .pure first
      | cons second rest =>
          exact .onHeap fun _ _ alike => alike.allocBundle (.cons first (.cons second rest))

theorem valuesOf (same : m.Same v w) : m.Sim (valuesOf v) (valuesOf w) SameList := by
  refine .look fun i j alike => ?_
  have again := same
  cases same with
  | bundle held => exact alike.heap.bundle held
  | _ => exact .cons again .nil

/-- The function that a symbol names. -/
theorem functionNamed (id : SymbolId) (same : m.Same v w) :
    m.Sim
      (do match ((← Run.symbols).symbol id).function with
          | some function => return function
          | none => Run.fail (.undefinedFunction (← Run.describe v)))
      (do match ((← Run.symbols).symbol id).function with
          | some function => return function
          | none => Run.fail (.undefinedFunction (← Run.describe w))) Same := by
  refine .withSymbols fun t u alike => ?_
  have slots := (alike.symbols id).function
  generalize (t.symbol id).function = slot at slots ⊢
  generalize (u.symbol id).function = slot' at slots ⊢
  cases slots with
  | some held => exact .pure held
  | none => exact .bind (.describe same) fun _ _ _ _ equal => equal ▸ .fail _

theorem coerceFunction (same : m.Same v w) :
    m.Sim (coerceFunction v) (coerceFunction w) Same := by
  have again := same
  cases same with
  | function held => exact .pure again
  | nil => exact .functionNamed _ again
  | symbol id => exact .functionNamed _ again
  | _ => exact .bind (.describe again) fun _ _ _ _ equal => equal ▸ .fail _

theorem characterOf (same : m.Same v w) : m.Sim (characterOf v) (characterOf w) Same := by
  refine .bind (.count same) fun m' n _ grows equal => ?_
  cases equal
  dsimp only
  split
  · exact .pure (.character _)
  · exact .typeError (same.mono grows) _

theorem checkCount (same : m.SameList args args') (ok : Nat → Nat → Bool) (expected : Nat → String) :
    m.Sim (checkCount args ok expected) (checkCount args' ok expected) Same := by
  refine .bind (.count (same.argument 0)) fun m' got _ grows equal => ?_
  cases equal
  refine .bind (.count ((same.argument 1).mono grows)) fun m'' limit _ more equal => ?_
  cases equal
  split
  · exact .pure .undefined
  · exact .fail _

theorem vectorItems (same : m.Same v w) : m.Sim (vectorItems v) (vectorItems w) SameItems := by
  have again := same
  cases same with
  | vector held => exact .withHeap fun h k alike => .pure (alike.vector held)
  | _ => exact .typeError again _

theorem appendValues (same : m.SameList args args') :
    m.Sim (appendValues args) (appendValues args') Same := by
  refine .bind (.vectorItems (same.argument 0)) fun m' items items' grows old => ?_
  refine .bind (.valuesOf ((same.argument 1).mono grows)) fun m'' values values' more new => ?_
  refine .onHeap fun _ _ alike => alike.allocVector ?_
  have longer : m''.SameList (items.toList ++ values) (items'.toList ++ values') :=
    List.rel_append (SameList.mono old more) new
  simpa [SameItems] using longer

theorem makeTransfer (same : m.SameList args args') :
    m.Sim (makeTransfer args) (makeTransfer args') Same := by
  have first := same.argument 0
  have target := same.argument 1
  have payload := same.argument 2
  have fourth := same.argument 3
  have made (kind : TransferKind) {m' : Pairing} (grows : m.Grows m') (label : Option String) :
      m'.Sim (Run.onHeap (·.allocTransfer ⟨kind, argument args 1, argument args 2, label⟩))
        (Run.onHeap (·.allocTransfer ⟨kind, argument args' 1, argument args' 2, label⟩)) Same :=
    .onHeap fun _ _ alike =>
      alike.allocTransfer ⟨rfl, rfl, target.mono grows, payload.mono grows⟩
  rw [Machine.makeTransfer, Machine.makeTransfer]
  generalize argument args 0 = v at first ⊢
  generalize argument args' 0 = w at first ⊢
  generalize argument args 3 = v' at fourth ⊢
  generalize argument args' 3 = w' at fourth ⊢
  cases first with
  | string name held =>
      dsimp only
      cases TransferKind.ofName? name with
      | none => exact .fail _
      | some kind =>
          have again := fourth
          cases fourth with
          | string text held => exact made kind (.refl m) _
          | undefined => exact made kind (.refl m) _
          | _ =>
              refine .bind (A := Equal) (.map (.describe again) fun _ _ _ _ equal =>
                congrArg some equal) fun m' label _ grows equal => ?_
              cases equal
              exact made kind grows label
  | _ => exact .fail _

theorem internSymbol (same : m.SameList args args') :
    m.Sim (internSymbol args) (internSymbol args') Same := by
  have first := same.argument 0
  have second := same.argument 1
  rw [Machine.internSymbol, Machine.internSymbol]
  generalize argument args 0 = v at first ⊢
  generalize argument args' 0 = w at first ⊢
  generalize argument args 1 = v' at second ⊢
  generalize argument args' 1 = w' at second ⊢
  have again := first
  cases first with
  | string text held =>
      cases second with
      | string package held =>
          refine .withSymbols fun t u alike => ?_
          rw [alike.findPackage?]
          cases u.findPackage? package with
          | some found => exact .internIn text found
          | none =>
              dsimp only
              split
              · exact .internIn text _
              · exact .fail _
      | _ => exact .typeError again _
  | _ => exact .typeError again _

theorem uninternedSymbol (same : m.SameList args args') :
    m.Sim (uninternedSymbol args) (uninternedSymbol args') Same := by
  have first := same.argument 0
  have second := same.argument 1
  rw [Machine.uninternedSymbol, Machine.uninternedSymbol]
  generalize argument args 0 = v at first ⊢
  generalize argument args' 0 = w at first ⊢
  generalize argument args 1 = v' at second ⊢
  generalize argument args' 1 = w' at second ⊢
  have again := first
  cases first with
  | string text held =>
      cases second with
      | number n =>
          refine .withSymbols fun t u alike => ?_
          have same (id : SymbolId) := alike.symbols id
          have count : t.symbolCount = u.symbolCount := alike.size
          simp only [count, (same _).home, (same _).name]
          refine .bind (A := Equal) (.pure rfl) fun m' known _ grows equal => ?_
          cases equal
          cases known with
          | some id => exact .pure (.symbol id)
          | none => exact .newSymbol text
      | _ => exact .newSymbol text
  | _ => exact .typeError again _

theorem runRoutine (r : Script.Routine) (same : m.SameList args args') :
    m.Sim (runRoutine r args) (runRoutine r args') Same := by
  have first := same.argument 0
  cases r
  case packValues => exact .packValues same
  case primaryValue =>
    cases same with
    | nil => exact .pure .nil
    | cons first _ => exact .pure first
  case appendValues => exact .appendValues same
  case coerceFunction => exact .coerceFunction first
  case character => exact .characterOf first
  case checkArgs => exact .checkCount same _ _
  case checkArgsAtLeast => exact .checkCount same _ _
  case checkArgsAtMost => exact .checkCount same _ _
  case checkKeywordPairs =>
    refine .bind (.count first) fun m' n _ grows equal => ?_
    cases equal
    split
    · exact .pure .undefined
    · exact .fail _
  case unknownKeyword =>
    exact .bind (.describe first) fun _ _ _ _ equal => equal ▸ .fail _
  case transfer => exact .makeTransfer same
  case internSymbol => exact .internSymbol same
  case uninternedSymbol => exact .uninternedSymbol same
  case deliverValues | applyVector => exact .pure .undefined

theorem onStrings (op : Script.BinaryOp) (same : m.Same v w) (a b : String) :
    m.Sim (onStrings op v a b) (onStrings op w a b) Same := by
  cases op
  case add => exact .newString _
  case lt | gt | le | ge => exact .pure (.bool _)
  all_goals exact .typeError same _

/-- The operators that look at numbers and strings. -/
theorem onValues (op : Script.BinaryOp) (first : m.Same v w) (second : m.Same v' w') :
    m.Sim
      (match v, v' with
        | .number a, .number b =>
            match onNumbers? op a b with
            | some value => return value
            | none => Run.fail (.host ("unsupported operator " ++ op.sign))
        | .string _ a, .string _ b => Machine.onStrings op v a b
        | .number _, other => Run.typeError other "NUMBER"
        | other, _ => Run.typeError other "NUMBER")
      (match w, w' with
        | .number a, .number b =>
            match onNumbers? op a b with
            | some value => return value
            | none => Run.fail (.host ("unsupported operator " ++ op.sign))
        | .string _ a, .string _ b => Machine.onStrings op w a b
        | .number _, other => Run.typeError other "NUMBER"
        | other, _ => Run.typeError other "NUMBER") Same := by
  have again := first
  have other := second
  cases first with
  | number a =>
      cases second with
      | number b =>
          dsimp only
          cases answered : onNumbers? op a b with
          | some value =>
              cases op <;> cases answered <;> exact .pure (by constructor)
          | none => exact .fail _
      | _ => exact .typeError other _
  | string a held =>
      cases second with
      | string b held' => exact .onStrings op again a b
      | _ => exact .typeError again _
  | _ => cases second <;> exact .typeError again _

theorem applyBinary (op : Script.BinaryOp) (first : m.Same v w) (second : m.Same v' w') :
    m.Sim (applyBinary op v v') (applyBinary op w w') Same := by
  have equal {i j : Image} (alike : m.Alike i j) := alike.heap.strictEq first second
  have values := onValues op first second
  cases op
  case strictEq | looseEq => exact fun i j alike => .ok (.refl m) alike (equal alike ▸ .bool _)
  case strictNe | looseNe => exact fun i j alike => .ok (.refl m) alike (equal alike ▸ .bool _)
  all_goals exact values

theorem applyUnary (op : Script.UnaryOp) (same : m.Same v w) :
    m.Sim (applyUnary op v) (applyUnary op w) Same := by
  have again := same
  cases op with
  | not =>
      rw [Machine.applyUnary, Machine.applyUnary, same.truthy]
      exact .pure (.bool _)
  | neg =>
      cases same with
      | number n => exact .pure (.number _)
      | _ => exact .typeError again _

theorem symbolProperty (id : SymbolId) (property : String) :
    m.Sim (symbolProperty id property) (symbolProperty id property) Same := by
  refine .withSymbols fun t u alike => ?_
  have same := alike.symbols id
  dsimp only
  split
  · exact .pure (SameSlot.getD same.value .undefined)
  · exact .pure (SameSlot.getD same.function .undefined)
  · rw [same.name]
    exact .newString _
  · rw [same.home]
    cases (u.symbol id).home with
    | some package => exact .pure (.package package)
    | none => exact .pure .nil
  · exact .pure same.plist
  · exact .pure .undefined

theorem transferProperty {x y : Transfer} (same : m.SameTransfer x y) (property : String) :
    m.Sim (transferProperty x property) (transferProperty y property) Same := by
  unfold Machine.transferProperty
  split
  · rw [same.kind]
    exact .newString _
  · exact .pure same.target
  · exact .pure same.payload
  · rw [same.label]
    cases y.label with
    | some label => exact .newString label
    | none => exact .pure .undefined
  · exact .pure .undefined

theorem getProperty (same : m.Same v w) (property : String) :
    m.Sim (getProperty v property) (getProperty w property) Same := by
  cases same with
  | nil => exact .symbolProperty _ property
  | symbol id => exact .symbolProperty id property
  | function held => exact .withHeap fun h k alike => .pure (alike.property held property)
  | cons held =>
      unfold Machine.getProperty
      dsimp only
      split
      · exact .withHeap fun h k alike => .pure (alike.cell held).car
      · exact .withHeap fun h k alike => .pure (alike.cell held).cdr
      · exact .pure .undefined
  | vector held =>
      unfold Machine.getProperty
      dsimp only
      split
      · refine .withHeap fun h k alike => ?_
        have sizes : (h.vector _).size = (k.vector _).size := (alike.vector held).length_eq
        rw [sizes]
        exact .pure (.number _)
      · exact .pure .undefined
  | string text held =>
      unfold Machine.getProperty
      dsimp only
      split
      · exact .pure (.number _)
      · exact .pure .undefined
  | bundle held =>
      unfold Machine.getProperty
      dsimp only
      split
      · refine .withHeap fun h k alike => ?_
        rw [(alike.bundle held).length_eq]
        exact .pure (.number _)
      · exact .pure .undefined
  | transfer held => exact .withHeap fun h k alike => .transferProperty (alike.transfer held) property
  | _ => exact .pure .undefined

theorem cannotSet (same : m.Same v w) (property : String) :
    m.Sim (cannotSet v property) (cannotSet w property) Equal :=
  .bind (.describe same) fun _ _ _ _ equal => equal ▸ .fail _

theorem slotOf (same : m.Same v w) : m.SameSlot (slotOf v) (slotOf w) := by
  have again := same
  cases same with
  | undefined => exact .none
  | _ => exact .some again

theorem setSymbolProperty (id : SymbolId) (property : String) (same : m.Same v w) :
    m.Sim (setSymbolProperty id property v) (setSymbolProperty id property w) Equal := by
  unfold Machine.setSymbolProperty
  split
  · exact .setSlotValue id (slotOf same)
  · exact .setSlotFunction id (slotOf same)
  · exact .modifySymbols fun _ _ alike =>
      alike.updateSymbol id fun _ _ old => { old with plist := same }
  · exact .cannotSet (.ofSymbol id) property

theorem setProperty (object : m.Same v w) (property : String) (same : m.Same v' w') :
    m.Sim (setProperty v property v') (setProperty w property w') Equal := by
  have again := object
  cases object with
  | nil => exact .setSymbolProperty _ property same
  | symbol id => exact .setSymbolProperty id property same
  | function held => exact .modifyHeap fun _ _ alike => alike.setProperty held property same
  | cons held =>
      unfold Machine.setProperty
      dsimp only
      split
      · exact .modifyHeap fun _ _ alike => alike.setCar held same
      · exact .modifyHeap fun _ _ alike => alike.setCdr held same
      · exact .cannotSet again property
  | _ => exact .cannotSet again property

theorem getElement (object : m.Same v w) (position : m.Same v' w') :
    m.Sim (getElement v v') (getElement w w') Same := by
  cases position with
  | number n =>
      rw [Machine.getElement, Machine.getElement]
      split
      · dsimp only
        cases object with
        | vector held =>
            exact .withHeap fun h k alike =>
              .pure (SameSlot.getD ((alike.vector held).getElem? _) .undefined)
        | bundle held =>
            exact .withHeap fun h k alike =>
              .pure (SameSlot.getD (SameList.getElem? (alike.bundle held) _) .undefined)
        | string text held =>
            dsimp only
            cases text.toList[Number.toCount n]? with
            | some c => exact .pure (.character c)
            | none => exact .pure .undefined
        | _ => exact .pure .undefined
      · exact .pure .undefined
  | _ => exact .pure .undefined

theorem setElement {v'' w'' : Value} (object : m.Same v w) (position : m.Same v' w')
    (same : m.Same v'' w'') : m.Sim (setElement v v' v'') (setElement w w' w'') Equal := by
  have again := object
  cases object with
  | vector held =>
      cases position with
      | number n =>
          rw [Machine.setElement, Machine.setElement]
          split
          · exact .modifyHeap fun _ _ alike => alike.setElement held _ same
          · exact .typeError again _
      | _ => exact .typeError again _
  | _ => cases position <;> exact .typeError again _

end Sim

end Builtins

end LispScript.Machine.Pairing
